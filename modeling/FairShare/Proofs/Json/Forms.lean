import FairShare.Proofs.Binary64.Shortest
import FairShare.Proofs.Decimal.Spelling

/-!
# What the forms of a binary number spell

Positional notation, the form with a fraction and the scientific one are texts of legal numbers, and
all of them spell the digits times the power of ten (`Numeral.Spells`).
-/

namespace FairShare

open Text

namespace Text

theorem ofDigits_zeros (k : Nat) : ofDigits (List.replicate k '0') = 0 := by
  induction k with
  | zero => rfl
  | succ k ih => rw [List.replicate_succ', ofDigits_append_digit, ih]; rfl

theorem isDigit_of_mem_zeros {c : Char} {k : Nat} (h : c ∈ List.replicate k '0') : c.isDigit := by
  rw [(List.mem_replicate.1 h).2]
  rfl

theorem isDigit_of_mem_toDigits {c : Char} {k : Nat} (h : c ∈ Nat.toDigits 10 k) : c.isDigit :=
  (isDigits_iff.1 (isDigits_toDigits k)).2 c h

theorem ofDigits_append_zeros (cs : List Char) (k : Nat) :
    ofDigits (cs ++ List.replicate k '0') = ofDigits cs * 10 ^ k := by
  rw [ofDigits_append, ofDigits_zeros, List.length_replicate, Nat.add_zero]

theorem ofDigits_zeros_append (cs : List Char) (k : Nat) :
    ofDigits (List.replicate k '0' ++ cs) = ofDigits cs := by
  rw [ofDigits_append, ofDigits_zeros, Nat.zero_mul, Nat.zero_add]

end Text

/-! ### How large a number is -/

namespace ScaledDigits
variable {x y : ScaledDigits}

theorem eq_of_parts (hdigits : x.digits = y.digits) (hexp : x.exponent = y.exponent) : x = y := by
  cases x
  cases y
  cases hdigits
  cases hexp
  rfl

theorem value_of_nonneg (h : 0 ≤ x.exponent) :
    x.value = (x.digits * 10 ^ x.exponent.toNat : Nat) := by
  obtain ⟨k, hk⟩ := Int.eq_ofNat_of_zero_le h
  rw [value, hk, Int.toNat_natCast, zpow_natCast]
  push_cast
  rfl

theorem value_of_neg (h : x.exponent < 0) : x.value = x.digits / 10 ^ (-x.exponent).toNat := by
  obtain ⟨k, hk⟩ := Int.eq_ofNat_of_zero_le (Int.neg_nonneg.2 h.le)
  rw [value, hk, Int.toNat_natCast, div_eq_mul_inv, ← zpow_natCast, ← zpow_neg, ← hk,
    neg_neg]

theorem digits_lt_pow (x : ScaledDigits) : x.digits < 10 ^ (Nat.toDigits 10 x.digits).length :=
  (Nat.length_toDigits_le_iff (by decide) Nat.length_toDigits_pos).1 le_rfl

theorem pow_le_digits (h : 0 < x.digits) :
    10 ^ ((Nat.toDigits 10 x.digits).length - 1) ≤ x.digits := by
  rcases Nat.eq_zero_or_pos ((Nat.toDigits 10 x.digits).length - 1) with hone | hmore
  · rw [hone]
    exact h
  · have hiff := Nat.length_toDigits_le_iff (n := x.digits) (b := 10) (by decide) hmore
    exact Nat.not_lt.1 fun hlt => by have := hiff.2 hlt; omega

/-- The place of the first digit tells how large the number is. -/
theorem value_bounds (h : 0 < x.digits) :
    10 ^ x.leadingPlace ≤ x.value ∧ x.value < 10 ^ (x.leadingPlace + 1) := by
  have hpos : (0 : ℚ) < 10 ^ x.exponent := by positivity
  have hlength : 0 < (Nat.toDigits 10 x.digits).length := Nat.length_toDigits_pos
  have hplace : x.leadingPlace = ((Nat.toDigits 10 x.digits).length - 1 : Nat) + x.exponent := by
    rw [leadingPlace]
    omega
  have hnext : x.leadingPlace + 1 = (Nat.toDigits 10 x.digits).length + x.exponent := by
    rw [leadingPlace]
    omega
  rw [hnext, hplace, zpow_add₀ (by norm_num), zpow_add₀ (by norm_num), zpow_natCast, zpow_natCast,
    value]
  constructor
  · refine mul_le_mul_of_nonneg_right ?_ hpos.le
    exact_mod_cast pow_le_digits h
  · refine mul_lt_mul_of_pos_right ?_ hpos
    exact_mod_cast x.digits_lt_pow

theorem le_value {k : Int} (h : 0 < x.digits) (hk : k ≤ x.leadingPlace) : 10 ^ k ≤ x.value :=
  (zpow_le_zpow_right₀ (by norm_num) hk).trans (value_bounds h).1

theorem value_lt {k : Int} (h : 0 < x.digits) (hk : x.leadingPlace < k) : x.value < 10 ^ k :=
  (value_bounds h).2.trans_le (zpow_le_zpow_right₀ (by norm_num) (Int.add_one_le_of_lt hk))

theorem fractional_of_long (h : x.leadingPlace < -5 ∨ 15 < x.leadingPlace) :
    x.fractional = x.scientific := by
  rw [fractional, if_neg]
  simp only [Bool.and_eq_true, decide_eq_true_eq]
  omega

theorem fractional_of_short (h : -5 ≤ x.leadingPlace) (h' : x.leadingPlace ≤ 15) :
    x.fractional = if 0 ≤ x.exponent then x.positional ++ ['.', '0'] else x.positional := by
  rw [fractional, decide_eq_true h, decide_eq_true h', Bool.and_self, if_pos rfl]

end ScaledDigits

namespace Numeral
variable {n m : Numeral} {negative : Bool} {cs : List Char} {x : ScaledDigits}

/-- A number that is written as a sign and these characters, and is that apart from its sign. -/
structure Spells (n : Numeral) (negative : Bool) (cs : List Char) (x : ScaledDigits) : Prop where
  legal : n.Legal
  negative_eq : n.negative = negative
  chars_eq : n.chars = n.sign ++ cs
  magnitude_eq : n.magnitude = x.value

theorem Legal.eq_of_chars (hn : n.Legal) (hm : m.Legal) (h : n.chars = m.chars) : n = m :=
  Option.some.inj <| hn.ofDecimalText?_chars.symm.trans <| h ▸ hm.ofDecimalText?_chars

/-- The characters and the sign tell which number it is. -/
theorem Spells.eq (h : m.Spells n.negative cs x) (hn : n.Legal) (hchars : n.chars = n.sign ++ cs) :
    n = m :=
  hn.eq_of_chars h.legal <| by rw [hchars, h.chars_eq, sign, sign, h.negative_eq]

theorem Spells.text_eq (h : m.Spells n.negative cs x) : m.text = String.ofList (n.sign ++ cs) := by
  rw [text, h.chars_eq, sign, sign, h.negative_eq]

theorem Spells.value_eq (h : m.Spells n.negative cs x) (hn : n.magnitude = x.value) :
    m.value = n.value := by
  rw [value, value, h.negative_eq, h.magnitude_eq, hn]

theorem isDigits_shifted (x : ScaledDigits) :
    isDigits (Nat.toDigits 10 x.digits ++ List.replicate x.exponent.toNat '0') :=
  isDigits_iff.2 ⟨List.append_ne_nil_of_left_ne_nil Nat.toDigits_ne_nil _,
    List.forall_mem_append.2 ⟨fun _ => isDigit_of_mem_toDigits, fun _ => isDigit_of_mem_zeros⟩⟩

theorem ofDigits_shifted (x : ScaledDigits) :
    ofDigits (Nat.toDigits 10 x.digits ++ List.replicate x.exponent.toNat '0') =
      x.digits * 10 ^ x.exponent.toNat := by
  rw [ofDigits_append_zeros, ofDigits_toDigits]

/-! ### The forms -/

theorem exists_spells_whole (negative : Bool) (h : 0 ≤ x.exponent) :
    ∃ n : Numeral, n.Spells negative x.positional x ∧ n.exponent = none ∧ n.fraction = [] := by
  refine ⟨⟨negative, Nat.toDigits 10 x.digits ++ List.replicate x.exponent.toNat '0', [], none⟩,
    ⟨⟨isDigits_shifted x, List.forall_mem_nil _, fun _ he => nomatch he⟩, rfl, ?_, ?_⟩, rfl, rfl⟩
  · rw [Numeral.chars_eq, plainChars, ScaledDigits.positional]
    simp [h, exponentText]
  · rw [magnitude_of_none rfl, ScaledDigits.value_of_nonneg h, List.append_nil, ofDigits_shifted,
      List.length_nil, pow_zero, div_one]

theorem exists_spells_pointZero (negative : Bool) (h : 0 ≤ x.exponent) :
    ∃ n : Numeral, n.Spells negative (x.positional ++ ['.', '0']) x ∧ n.exponent = none ∧
      n.fraction = ['0'] ∧
      ofDigits (n.whole ++ n.fraction) = x.digits * 10 ^ x.exponent.toNat * 10 := by
  have hdigits :
      ofDigits (Nat.toDigits 10 x.digits ++ List.replicate x.exponent.toNat '0' ++ ['0']) =
        x.digits * 10 ^ x.exponent.toNat * 10 := by
    rw [ofDigits_append_digit, ofDigits_shifted, Nat.mul_comm]
    rfl
  refine ⟨⟨negative, Nat.toDigits 10 x.digits ++ List.replicate x.exponent.toNat '0', ['0'], none⟩,
    ⟨⟨isDigits_shifted x, fun _ => isDigit_of_mem_zeros (k := 1), fun _ he => nomatch he⟩,
      rfl, ?_, ?_⟩, rfl, rfl, hdigits⟩
  · rw [Numeral.chars_eq, plainChars, ScaledDigits.positional]
    simp [h, exponentText]
  · rw [magnitude_of_none rfl, ScaledDigits.value_of_nonneg h, hdigits]
    push_cast
    simp

/-- The exponent of the scientific form. -/
def leading (x : ScaledDigits) : Bool × List Char :=
  (x.leadingPlace < 0, Nat.toDigits 10 x.leadingPlace.natAbs)

/-- Where the point stands among the digits, or zeros before them. -/
theorem exists_positional (h : x.exponent < 0) : ∃ whole fraction,
    x.positional = whole ++ '.' :: fraction ∧ isDigits whole ∧ (∀ c ∈ fraction, c.isDigit) ∧
      fraction.length = (-x.exponent).toNat ∧ ofDigits (whole ++ fraction) = x.digits := by
  rcases Int.lt_or_le 0 ((Nat.toDigits 10 x.digits).length + x.exponent) with hbefore | hzero
  · refine ⟨(Nat.toDigits 10 x.digits).take ((Nat.toDigits 10 x.digits).length + x.exponent).toNat,
      (Nat.toDigits 10 x.digits).drop ((Nat.toDigits 10 x.digits).length + x.exponent).toNat,
      ?_, isDigits_iff.2 ⟨?_, fun c hc => isDigit_of_mem_toDigits (List.mem_of_mem_take hc)⟩,
      fun c hc => isDigit_of_mem_toDigits (List.mem_of_mem_drop hc), ?_, ?_⟩
    · rw [ScaledDigits.positional]
      simp only [if_neg (Int.not_le.2 h), if_pos hbefore, List.append_assoc, List.singleton_append]
    · intro hnil
      have hlength := congrArg List.length hnil
      rw [List.length_take, List.length_nil] at hlength
      omega
    · rw [List.length_drop]
      omega
    · rw [List.take_append_drop, ofDigits_toDigits]
  · refine ⟨['0'], List.replicate (-((Nat.toDigits 10 x.digits).length + x.exponent)).toNat '0' ++
      Nat.toDigits 10 x.digits, ?_, rfl, List.forall_mem_append.2 ⟨fun _ => isDigit_of_mem_zeros,
        fun _ => isDigit_of_mem_toDigits⟩, ?_, ?_⟩
    · rw [ScaledDigits.positional]
      simp only [if_neg (Int.not_le.2 h), if_neg (Int.not_lt.2 hzero)]
      rfl
    · rw [List.length_append, List.length_replicate]
      omega
    · rw [show ['0'] = List.replicate 1 '0' from rfl, ofDigits_zeros_append, ofDigits_zeros_append,
        ofDigits_toDigits]

theorem exists_spells_places (negative : Bool) (h : x.exponent < 0) :
    ∃ n : Numeral, n.Spells negative x.positional x ∧ n.exponent = none ∧
      n.fraction.length = (-x.exponent).toNat ∧ ofDigits (n.whole ++ n.fraction) = x.digits := by
  obtain ⟨whole, fraction, hform, hwhole, hfraction, hlength, hdigits⟩ := exists_positional h
  refine ⟨⟨negative, whole, fraction, none⟩,
    ⟨⟨hwhole, hfraction, fun _ he => nomatch he⟩, rfl, ?_, ?_⟩, rfl, hlength, hdigits⟩
  · have hne : fraction ≠ [] := by
      rw [← List.length_pos_iff, hlength]
      omega
    rw [Numeral.chars_eq, plainChars, hform, exponentText, if_neg (by simpa using hne),
      List.append_nil]
  · rw [magnitude_of_none rfl, ScaledDigits.value_of_neg h, hlength, hdigits]

theorem scaled_leading {first : Char} {rest : List Char}
    (h : Nat.toDigits 10 x.digits = first :: rest) :
    (⟨negative, [first], rest, some (leading x)⟩ : Numeral).scaled = x := by
  have hdigits : ofDigits ([first] ++ rest) = x.digits := by
    rw [List.singleton_append, ← h, ofDigits_toDigits]
  have hplace : x.leadingPlace - rest.length = x.exponent := by
    rw [ScaledDigits.leadingPlace, h, List.length_cons]
    push_cast
    omega
  have hnat := ofDigits_toDigits x.leadingPlace.natAbs
  rw [scaled, leading]
  rcases Int.lt_or_le x.leadingPlace 0 with hneg | hpos
  · simp only [decide_eq_true hneg, hdigits, hnat, Int.natCast_natAbs, abs_of_neg hneg, neg_neg,
      hplace]
  · simp only [decide_eq_false (Int.not_lt.2 hpos), hdigits, hnat, Int.natCast_natAbs,
      abs_of_nonneg hpos, hplace]

theorem exists_spells_scientific (negative : Bool) (x : ScaledDigits) :
    ∃ n : Numeral, n.Spells negative x.scientific x ∧
      n.exponent = some (leading x) ∧
      n.fraction.length + 1 = (Nat.toDigits 10 x.digits).length ∧
      ofDigits (n.whole ++ n.fraction) = x.digits := by
  obtain ⟨first, rest, hdigits⟩ : ∃ first rest, Nat.toDigits 10 x.digits = first :: rest :=
    List.exists_cons_of_ne_nil Nat.toDigits_ne_nil
  have hall : ∀ c ∈ first :: rest, c.isDigit := hdigits ▸ fun _ => isDigit_of_mem_toDigits
  obtain ⟨hfirst, hrest⟩ := List.forall_mem_cons.1 hall
  have hvalue : ofDigits (first :: rest) = x.digits := hdigits ▸ ofDigits_toDigits x.digits
  refine ⟨⟨negative, [first], rest, some (leading x)⟩,
    ⟨⟨?_, hrest, ?_⟩, rfl, ?_, ?_⟩, rfl, ?_, hvalue⟩
  · exact isDigits_iff.2 ⟨List.cons_ne_nil _ _, List.forall_mem_singleton.2 hfirst⟩
  · rintro _ ⟨⟩
    exact isDigits_toDigits _
  · rw [Numeral.chars_eq, plainChars, ScaledDigits.scientific, hdigits, List.append_assoc]
    cases rest <;> simp [exponentText, leading]
  · rw [magnitude, scaled_leading hdigits, ScaledDigits.value]
  · rw [hdigits, List.length_cons]

end Numeral
end FairShare
