import FairShare.Proofs.Decimal.Spelling
import FairShare.Proofs.Volume.Reading

/-!
# What is refused of a written number

A number is written with digits, a sign in front or not, and a point among the digits or not. Digits
alone are refused only if they are too large, and then by that name. With a sign or a point they are
read as a decimal, and there is none if the digits before the point do not fit, or if they leave no
room for the unit that the first digit after the point is rounded to
(`Decimal.readFraction_eq_none_iff`). So such a number is called malformed if it rounds to more than a
decimal can hold, although it is a number (`Volume.not_ofText_ne_malformed`), and never too large
(`Volume.ofText_refusals`).
-/

namespace FairShare

open Text

namespace Decimal
variable {d : Decimal} {ds cs sign : List Char} {seen negative : Bool} {n : Numeral} {c : Char}

/-! ### Where there is no decimal -/

theorem readWhole_eq_none (hd : d.Holds negative ds 0) (hcs : ∀ c ∈ cs, c.isDigit)
    (hout : limit ≤ ofDigits (ds ++ cs)) (rest : List Char) :
    readWhole d seen (cs ++ rest) = none := by
  induction cs generalizing d ds seen with
  | nil =>
    have := d.mantissa_lt
    rw [hd.mantissa_eq] at this
    rw [List.append_nil] at hout
    omega
  | cons c cs ih =>
    obtain ⟨hc, hcs⟩ := List.forall_mem_cons.1 hcs
    rw [List.cons_append, readWhole, if_neg (ne_of_isDigit hc rfl), if_neg (ne_of_isDigit hc rfl),
      digit?, if_pos hc]
    cases hlonger : d.appendWhole? (c.toNat - 48) with
    | none => simp only [hlonger]
    | some longer =>
      obtain ⟨hneg, hm, hs⟩ := ofParts?_eq_some.1 hlonger
      have hlong : longer.Holds negative (ds ++ [c]) 0 := by
        refine ⟨hneg.trans hd.negative_eq, ?_, hs.trans hd.scale_eq⟩
        rw [hm, hd.mantissa_eq, ofDigits_append_digit]
      simp only [hlonger]
      exact ih hlong hcs (by rwa [List.append_assoc, List.singleton_append])

theorem readFraction_cons (hc : c.isDigit) (hcs : ∀ c ∈ cs, c.isDigit) :
    readFraction d seen (c :: cs) = match d.appendFraction? (c.toNat - 48) with
      | some longer => readFraction longer true cs
      | none => if 5 ≤ c.toNat - 48 then d.awayFromZero? else some d := by
  have htail : cs.all isTail := List.all_eq_true.2 fun e he => by rw [isTail, hcs e he, Bool.true_or]
  rw [readFraction, if_neg (ne_of_isDigit hc rfl), digit?, if_pos hc]
  cases hlonger : d.appendFraction? (c.toNat - 48) with
  | some longer => simp [hlonger]
  | none => simp [hlonger, htail]

theorem exists_awayFromZero? (hs : 0 < d.scale) : ∃ r, d.awayFromZero? = some r := by
  have hm := d.mantissa_lt
  have hscale := d.scale_le
  unfold awayFromZero?
  split
  · next hlt => exact exists_ofParts? hlt hscale
  · rw [if_neg (Nat.ne_of_gt hs)]
    unfold limit at *
    exact exists_ofParts? (by unfold limit; omega) (by omega)

/-- After a place there is always room to round. -/
theorem exists_readFraction (hs : 0 < d.scale) (hcs : ∀ c ∈ cs, c.isDigit) :
    ∃ r, readFraction d true cs = some r := by
  induction cs generalizing d with
  | nil => exact ⟨d, rfl⟩
  | cons c cs ih =>
    obtain ⟨hc, hcs⟩ := List.forall_mem_cons.1 hcs
    rw [readFraction_cons hc hcs]
    split
    · next longer hlonger =>
      have hscale := (ofParts?_eq_some.1 hlonger).2.2
      exact ih (by omega) hcs
    · split
      · exact exists_awayFromZero? hs
      · exact ⟨d, rfl⟩

theorem readFraction_eq_none_iff (hs : d.scale = 0) (hcs : ∀ c ∈ cs, c.isDigit) :
    readFraction d true cs = none ↔ 5 ≤ ofDigits (cs.take 1) ∧ limit ≤ d.mantissa + 1 := by
  cases cs with
  | nil => simp [readFraction, ofDigits]
  | cons c cs =>
    obtain ⟨hc, hcs⟩ := List.forall_mem_cons.1 hcs
    have hfirst : ofDigits ((c :: cs).take 1) = c.toNat - 48 := by simp [ofDigits]
    rw [readFraction_cons hc hcs, hfirst]
    split
    · next longer hlonger =>
      obtain ⟨-, hm, hscale⟩ := ofParts?_eq_some.1 hlonger
      obtain ⟨r, hr⟩ := exists_readFraction (d := longer) (by omega) hcs
      have hlt := longer.mantissa_lt
      rw [hr]
      refine iff_of_false (Option.some_ne_none r) fun hnone => ?_
      obtain ⟨-, hfull⟩ := hnone
      rw [hm] at hlt
      unfold limit at hlt hfull
      omega
    · split
      · next hfive =>
        unfold awayFromZero?
        split
        · next hlt =>
          rw [ofParts?, dif_pos ⟨hlt, d.scale_le⟩]
          exact iff_of_false (Option.some_ne_none _) fun hnone => Nat.not_lt_of_le hnone.2 hlt
        · next hfull =>
          exact iff_of_true rfl ⟨hfive, Nat.le_of_not_lt hfull⟩
      · next hfour =>
        exact iff_of_false (Option.some_ne_none d) fun hnone => hfour hnone.1

/-- Zeros after the point change nothing. -/
theorem readFraction_zeros {w : Nat} (hm : d.mantissa = w * 10 ^ d.scale) (hcs : ∀ c ∈ cs, c = '0') :
    ∃ r, readFraction d true cs = some r ∧ r.negative = d.negative ∧
      r.mantissa = w * 10 ^ r.scale := by
  induction cs generalizing d with
  | nil => exact ⟨d, rfl, rfl, hm⟩
  | cons c cs ih =>
    obtain ⟨hzero, hcs⟩ := List.forall_mem_cons.1 hcs
    rw [hzero]
    have hdigits : ∀ c ∈ cs, c.isDigit := fun c hc => by
      rw [hcs c hc]
      rfl
    rw [readFraction_cons (show '0'.isDigit by decide) hdigits]
    split
    · next longer hlonger =>
      obtain ⟨hneg, hm', hscale⟩ := ofParts?_eq_some.1 hlonger
      have hlong : longer.mantissa = w * 10 ^ longer.scale := by
        rw [hm', hscale, hm, pow_succ]
        show 10 * (w * 10 ^ d.scale) + 0 = _
        rw [Nat.add_zero, Nat.mul_comm 10, Nat.mul_assoc]
      obtain ⟨r, hr, hrneg, hrm⟩ := ih hlong hcs
      exact ⟨r, hr, hrneg.trans hneg, hrm⟩
    · exact ⟨d, rfl, rfl, hm⟩

/-! ### Signs -/

theorem ofChars?_of_noMark (h : ∀ c ∈ cs, (!isExponentMark c) = true) : ofChars? cs = ofPlain? cs := by
  unfold ofChars?
  cases ofPlain? cs with
  | some d => rfl
  | none =>
    rw [ofScientific?, List.dropWhile_eq_nil_iff.2 h]

theorem noMark_of_signed (hcs : ∀ c ∈ cs, c.isDigit ∨ c = '.') (hs : sign ∈ n.signs) :
    ∀ c ∈ sign ++ cs, (!isExponentMark c) = true := by
  have hsigns : ∀ sign ∈ n.signs, ∀ c ∈ sign, (!isExponentMark c) = true := by
    unfold Numeral.signs
    split <;> simp [isExponentMark]
  refine List.forall_mem_append.2 ⟨hsigns sign hs, fun c hc => ?_⟩
  rcases hcs c hc with hc | rfl
  · rw [isExponentMark_of_isDigit hc]
    rfl
  · rfl

/-- A sign is taken off what is written with digits and points, and no exponent is looked for. -/
theorem ofChars?_signed (hcs : ∀ c ∈ cs, c.isDigit ∨ c = '.') (hs : sign ∈ n.signs) :
    ofChars? (sign ++ cs) = readWhole (zero n.negative) false cs := by
  rw [ofChars?_of_noMark (noMark_of_signed hcs hs), ofPlain?_signed hcs hs]

/-- The unit that the digits after the point are rounded to, if they do not count. -/
def carry (fraction : List Char) : Nat := if 5 ≤ ofDigits (fraction.take 1) then 1 else 0

theorem carry_of_zeros {fraction : List Char} (h : ∀ c ∈ fraction, c = '0') :
    carry fraction = 0 := by
  cases fraction with
  | nil => rfl
  | cons c fraction =>
    rw [h c List.mem_cons_self]
    rfl

/-- There is a decimal as long as what comes before the point fits, with what is rounded up. -/
theorem ofChars?_eq_none_iff (h : n.Legal) (hs : sign ∈ n.signs) :
    ofChars? (sign ++ n.plainChars) = none ↔ limit ≤ ofDigits n.whole + carry n.fraction := by
  obtain ⟨hne, hwhole⟩ := isDigits_iff.1 h.whole
  rw [ofChars?_signed (fun _ => h.mem_plainChars) hs, Numeral.plainChars, carry]
  by_cases hfit : ofDigits n.whole < limit
  · obtain ⟨r, hr, hread⟩ := readWhole_append (holds_zero n.negative) hwhole (.inr hne) hfit
      (if n.fraction.isEmpty then [] else '.' :: n.fraction)
    have hm : r.mantissa = ofDigits n.whole := hread.mantissa_eq
    rw [hr]
    cases hf : n.fraction with
    | nil =>
      refine iff_of_false (Option.some_ne_none r) fun hle => ?_
      rw [List.take_nil, if_neg (by decide)] at hle
      omega
    | cons c fraction =>
      have hfraction : ∀ e ∈ c :: fraction, e.isDigit := hf ▸ h.fraction
      show readFraction r true (c :: fraction) = none ↔ _
      rw [readFraction_eq_none_iff hread.scale_eq hfraction, hm]
      split <;> omega
  · rw [readWhole_eq_none (holds_zero n.negative) hwhole (Nat.le_of_not_lt hfit)]
    exact iff_of_true rfl (by omega)

/-- A number that is written with zeros after the point is read as what is before it. -/
theorem ofChars?_of_zeros (h : n.Legal) (hs : sign ∈ n.signs) (hzero : ∀ c ∈ n.fraction, c = '0')
    (hfit : ofDigits n.whole < limit) : ∃ d, ofChars? (sign ++ n.plainChars) = some d ∧
      d.negative = n.negative ∧ d.mantissa = ofDigits n.whole * 10 ^ d.scale := by
  obtain ⟨hne, hwhole⟩ := isDigits_iff.1 h.whole
  rw [ofChars?_signed (fun _ => h.mem_plainChars) hs, Numeral.plainChars]
  obtain ⟨r, hr, hread⟩ := readWhole_append (holds_zero n.negative) hwhole (.inr hne) hfit
    (if n.fraction.isEmpty then [] else '.' :: n.fraction)
  have hm : r.mantissa = ofDigits n.whole * 10 ^ r.scale := by
    rw [hread.mantissa_eq, hread.scale_eq, pow_zero, Nat.mul_one]
    rfl
  rw [hr]
  cases hf : n.fraction with
  | nil => exact ⟨r, rfl, hread.negative_eq, hm⟩
  | cons c fraction =>
    obtain ⟨d, hd, hneg, hdm⟩ := readFraction_zeros hm (hf ▸ hzero)
    exact ⟨d, hd, hneg.trans hread.negative_eq, hdm⟩

end Decimal

namespace Volume
variable {n : Numeral} {sign : List Char} {offered t : String} {v : Volume} {d : Decimal}

theorem ofDecimal_ne (offered t : String) (d : Decimal) :
    ofDecimal offered d ≠ .error (.malformed t) ∧ ofDecimal offered d ≠ .error (.overflow t) := by
  unfold ofDecimal
  split
  · simp
  · split
    · simp
    · split <;> simp

theorem plainChars_of_digits (hf : n.fraction = []) : [] ++ n.plainChars = n.whole := by
  rw [Numeral.plainChars, hf, List.isEmpty_nil, if_pos rfl, List.append_nil, List.nil_append]

theorem isDigits_signed_iff (h : n.Legal) (hs : sign ∈ n.signs) :
    isDigits (sign ++ n.plainChars) ↔ sign = [] ∧ n.fraction = [] := by
  constructor
  · intro hdigits
    have hall := (isDigits_iff.1 hdigits).2
    constructor
    · exact (Numeral.sign_eq_nil hs fun c hc => hall c (List.mem_append_left _ hc)).1
    · refine Classical.byContradiction fun hf => absurd (hall '.' ?_) (by decide)
      rw [Numeral.plainChars, if_neg (by simpa using hf)]
      simp
  · rintro ⟨rfl, hf⟩
    rw [plainChars_of_digits hf]
    exact h.whole

/-- The number is in the upper half of a unit just if its first digit after the point is rounded up. -/
theorem magnitude_bounds (h : n.Legal) (he : n.exponent = none) :
    (ofDigits n.whole : ℚ) + Decimal.carry n.fraction / 2 ≤ n.magnitude ∧
      n.magnitude < ofDigits n.whole + (Decimal.carry n.fraction + 1) / 2 := by
  rw [Numeral.magnitude_of_none he]
  cases hf : n.fraction with
  | nil => simp [Decimal.carry, ofDigits]
  | cons c tail =>
    obtain ⟨hc, htail⟩ := List.forall_mem_cons.1 (hf ▸ h.fraction)
    obtain ⟨hlow, hhigh⟩ := ofDigits_append_bounds (n.whole ++ [c]) htail
    rw [ofDigits_append_digit, List.append_assoc, List.singleton_append] at hlow hhigh
    have hpos : (0 : ℚ) < 10 ^ tail.length := by positivity
    have hlow : (10 * ofDigits n.whole + (c.toNat - 48 : ℕ) : ℚ) ≤
        ofDigits (n.whole ++ c :: tail) / 10 ^ tail.length := by
      rw [le_div_iff₀ hpos]
      exact_mod_cast hlow
    have hhigh : (ofDigits (n.whole ++ c :: tail) : ℚ) / 10 ^ tail.length <
        10 * ofDigits n.whole + (c.toNat - 48 : ℕ) + 1 := by
      rw [div_lt_iff₀ hpos]
      exact_mod_cast hhigh
    have hten : (ofDigits (n.whole ++ c :: tail) : ℚ) / 10 ^ (c :: tail).length =
        ofDigits (n.whole ++ c :: tail) / 10 ^ tail.length / 10 := by
      rw [List.length_cons, pow_succ, div_div]
    have hfirst : ofDigits ((c :: tail).take 1) = c.toNat - 48 := by simp [ofDigits]
    have hk : ((c.toNat - 48 : ℕ) : ℚ) ≤ 9 := by
      exact_mod_cast Nat.le_of_lt_succ (sub_lt_of_isDigit hc)
    rw [hten, Decimal.carry, hfirst]
    split
    · next hfive =>
      have : (5 : ℚ) ≤ (c.toNat - 48 : ℕ) := by exact_mod_cast hfive
      constructor <;> push_cast <;> linarith
    · next hfour =>
      have : ((c.toNat - 48 : ℕ) : ℚ) ≤ 4 := by
        exact_mod_cast Nat.le_of_lt_succ (Nat.lt_of_not_le hfour)
      have : (0 : ℚ) ≤ (c.toNat - 48 : ℕ) := Nat.cast_nonneg _
      constructor <;> push_cast <;> linarith

/-- What is before the point is too large, with what is rounded up, just if the number is. -/
theorem limit_le_iff (h : n.Legal) (he : n.exponent = none) :
    Decimal.limit ≤ ofDigits n.whole + Decimal.carry n.fraction ↔
      (Decimal.limit : ℚ) ≤ n.magnitude + 1 / 2 := by
  obtain ⟨hlow, hhigh⟩ := magnitude_bounds h he
  have hcarry : (Decimal.carry n.fraction : ℚ) ≤ 1 := by
    rw [Decimal.carry]
    split <;> simp
  have hnonneg : (0 : ℚ) ≤ Decimal.carry n.fraction := Nat.cast_nonneg _
  constructor
  · intro hle
    have hle : (Decimal.limit : ℚ) ≤ ofDigits n.whole + Decimal.carry n.fraction := by
      exact_mod_cast hle
    linarith
  · intro hle
    refine Nat.le_of_lt_succ ?_
    have : (Decimal.limit : ℚ) < ofDigits n.whole + Decimal.carry n.fraction + 1 := by linarith
    exact_mod_cast this

theorem ofNat?_eq_some_iff {k : Nat} : ofNat? k = some v ↔ k = v.units := by
  constructor
  · exact fun h => (units_of_ofNat? h).symm
  · rintro rfl
    exact ofNat?_units v

theorem ofNat?_eq_none_iff {k : Nat} : ofNat? k = none ↔ limit ≤ k := by
  rw [ofNat?, dite_eq_right_iff]
  simp

/-! ### Refusals -/

theorem ofText_of_digits (h : isDigits (trim offered.toList)) : ofText offered =
    match ofNat? (ofDigits (trim offered.toList)) with
    | some v => .ok v
    | none => .error (.overflow offered) := if_pos h

theorem ofText_of_not_digits (h : ¬ isDigits (trim offered.toList)) : ofText offered =
    match Decimal.ofChars? (trim offered.toList) with
    | some d => ofDecimal offered d
    | none => .error (.malformed offered) := if_neg h

theorem ofText_malformed_iff : (∃ t, ofText offered = .error (.malformed t)) ↔
    ¬ isDigits (trim offered.toList) ∧ Decimal.ofChars? (trim offered.toList) = none := by
  by_cases hdigits : isDigits (trim offered.toList)
  · rw [ofText_of_digits hdigits]
    cases ofNat? (ofDigits (trim offered.toList)) <;> simp [hdigits]
  · rw [ofText_of_not_digits hdigits]
    cases Decimal.ofChars? (trim offered.toList) with
    | none => simp [hdigits]
    | some d => simp [(ofDecimal_ne offered _ d).1]

theorem ofText_overflow_iff : (∃ t, ofText offered = .error (.overflow t)) ↔
    isDigits (trim offered.toList) ∧ limit ≤ ofDigits (trim offered.toList) := by
  by_cases hdigits : isDigits (trim offered.toList)
  · rw [ofText_of_digits hdigits, and_iff_right hdigits, ← ofNat?_eq_none_iff]
    cases ofNat? (ofDigits (trim offered.toList)) <;> simp
  · rw [ofText_of_not_digits hdigits]
    cases Decimal.ofChars? (trim offered.toList) with
    | none => simp [hdigits]
    | some d => simp [hdigits, (ofDecimal_ne offered _ d).2]

/-! ### Numbers that are whole -/

theorem ofDecimal_eq_ok_iff {w : Nat} (hneg : d.negative = false) (hm : d.mantissa = w * 10 ^ d.scale) :
    ofDecimal offered d = .ok v ↔ w = v.units := by
  have hpos : 0 < 10 ^ d.scale := Nat.pow_pos (by decide)
  constructor
  · intro h
    have hunits : d.mantissa = v.units * 10 ^ d.scale := by exact_mod_cast (ofDecimal_eq_ok h).1
    exact Nat.eq_of_mul_eq_mul_right hpos (hm.symm.trans hunits)
  · rintro rfl
    have hwhole : d.isWhole := by
      rw [Decimal.isWhole, hm]
      exact beq_iff_eq.2 (Nat.mul_mod_left ..)
    unfold ofDecimal
    split
    · next hzero =>
      rw [hm, Nat.mul_eq_zero, or_iff_left (Nat.ne_of_gt hpos)] at hzero
      exact congrArg _ (Volume.ext hzero.symm)
    · rw [hneg, if_neg Bool.false_ne_true, hwhole, Bool.not_true, if_neg Bool.false_ne_true]
      refine congrArg _ (Volume.ext ?_)
      show d.mantissa / d.unit = v.units
      rw [hm]
      exact Nat.mul_div_cancel _ hpos

/-- A number that is written with zeros after the point is read as what is before it, if that fits. -/
theorem ofText_zeros_iff (h : n.Legal) (hs : sign ∈ n.signs)
    (ht : trim offered.toList = sign ++ n.plainChars) (hneg : n.negative = false)
    (hzero : ∀ c ∈ n.fraction, c = '0') : ofText offered = .ok v ↔
      ofDigits n.whole = v.units ∧
        (sign = [] ∧ n.fraction = [] ∨ ofDigits n.whole < Decimal.limit) := by
  by_cases hdigits : isDigits (sign ++ n.plainChars)
  · obtain ⟨rfl, hf⟩ := (isDigits_signed_iff h hs).1 hdigits
    rw [ofText_of_digits (ht ▸ hdigits), ht, plainChars_of_digits hf, and_iff_left (.inl ⟨rfl, hf⟩),
      ← ofNat?_eq_some_iff]
    cases ofNat? (ofDigits n.whole) <;> simp
  · rw [← isDigits_signed_iff h hs, or_iff_right hdigits, ofText_of_not_digits (ht ▸ hdigits), ht]
    cases hd : Decimal.ofChars? (sign ++ n.plainChars) with
    | none =>
      have hlarge := (Decimal.ofChars?_eq_none_iff h hs).1 hd
      rw [Decimal.carry_of_zeros hzero] at hlarge
      exact iff_of_false (by simp) fun hv => Nat.not_lt_of_le hlarge hv.2
    | some d =>
      have hfits : ofDigits n.whole < Decimal.limit := by
        refine Nat.lt_of_not_le fun hlarge => ?_
        rw [(Decimal.ofChars?_eq_none_iff h hs).2 (Nat.le_add_right_of_le hlarge)] at hd
        cases hd
      obtain ⟨d', hd', hneg', hm⟩ := Decimal.ofChars?_of_zeros h hs hzero hfits
      cases hd.symm.trans hd'
      rw [and_iff_left hfits]
      exact ofDecimal_eq_ok_iff (hneg'.trans hneg) hm

/-- What becomes of a written number. Digits alone are refused if they are too large for a volume. With
a sign or a point there is no such refusal, but the number is called malformed if it rounds to more than
a decimal holds; a smaller one that is whole and not below zero is read as what it is. -/
theorem ofText_refusals (h : n.Legal) (he : n.exponent = none) (hs : sign ∈ n.signs)
    (ht : trim offered.toList = sign ++ n.plainChars) :
    ((∃ t, ofText offered = .error (.malformed t)) ↔
      ¬ (sign = [] ∧ n.fraction = []) ∧ (Decimal.limit : ℚ) ≤ n.magnitude + 1 / 2) ∧
    ((∃ t, ofText offered = .error (.overflow t)) ↔
      (sign = [] ∧ n.fraction = []) ∧ limit ≤ ofDigits n.whole) ∧
    (n.negative = false → (∀ c ∈ n.fraction, c = '0') → ∀ v, ofText offered = .ok v ↔
      ofDigits n.whole = v.units ∧
        (sign = [] ∧ n.fraction = [] ∨ ofDigits n.whole < Decimal.limit)) := by
  refine ⟨?_, ?_, fun hneg hzero v => ofText_zeros_iff h hs ht hneg hzero⟩
  · rw [ofText_malformed_iff, ht, isDigits_signed_iff h hs, Decimal.ofChars?_eq_none_iff h hs,
      limit_le_iff h he]
  · rw [ofText_overflow_iff, ht, isDigits_signed_iff h hs]
    refine and_congr_right fun hdigits => ?_
    rw [hdigits.1, plainChars_of_digits hdigits.2]

theorem ofText_refusals_sample :
    let n : Numeral := ⟨false, ['1', '2'], ['0', '0'], none⟩
    (n.Legal ∧ ['+'] ∈ n.signs ∧ trim " +12.00 ".toList = ['+'] ++ n.plainChars) ∧
    ofText " +12.00 " = .ok (clamp 12) := by
  intro n
  have hzeros : ∀ c ∈ n.fraction, c = '0' := by simp [n]
  have hlegal : n.Legal := ⟨rfl, fun c hc => hzeros c hc ▸ rfl, nofun⟩
  have htrim : trim " +12.00 ".toList = ['+'] ++ n.plainChars := by decide
  have hsign : ['+'] ∈ n.signs := by simp [n, Numeral.signs]
  obtain ⟨-, -, haccepted⟩ := ofText_refusals hlegal rfl hsign htrim
  exact ⟨⟨hlegal, hsign, htrim⟩, (haccepted rfl hzeros (clamp 12)).2 ⟨rfl, .inr (by decide)⟩⟩

/-- The first number that does not fit a decimal, with a plus in front. -/
theorem not_ofText_ne_malformed : ¬ ∀ (n : Numeral) (sign : List Char) (offered : String), n.Legal →
    n.exponent = none → sign ∈ n.signs → trim offered.toList = sign ++ n.plainChars →
    ∀ t, ofText offered ≠ .error (.malformed t) := by
  intro h
  refine h ⟨false, "79228162514264337593543950336".toList, [], none⟩ ['+']
    "+79228162514264337593543950336" ⟨by decide, nofun, nofun⟩ rfl (by simp [Numeral.signs]) (by decide)
    "+79228162514264337593543950336" ?_
  decide +kernel

end Volume
end FairShare
