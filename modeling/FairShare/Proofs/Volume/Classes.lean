import FairShare.Proofs.Volume.Refusal

/-!
# How a number that fits is told apart

A number without an exponent is written with a sign or none, digits, and a point among them or none;
the point may come first or last, as long as there is a digit. If the digits fit a decimal, nothing
is rounded on the way: the decimal has the digits for its mantissa and the places for its scale
(`Decimal.ofChars?_written`). So the sign, the fraction and the whole part that are tested are those
of the number itself (`Volume.ofText_classifies`).
-/

namespace FairShare

open Text

namespace Text
variable {c : Char} {cs : List Char}

theorem eq_zero_of_isDigit (hc : c.isDigit) (h : c.toNat - 48 = 0) : c = '0' := by
  have hlow : 48 ≤ c.toNat := (Char.isDigit_iff_toNat.1 hc).1
  have htoNat : c.toNat = '0'.toNat := by
    show c.toNat = 48
    omega
  rw [← Char.ofNat_toNat c, htoNat]
  rfl

theorem ofDigits_eq_zero_iff (h : ∀ c ∈ cs, c.isDigit) : ofDigits cs = 0 ↔ ∀ c ∈ cs, c = '0' := by
  induction cs using List.reverseRecOn with
  | nil => simp [ofDigits]
  | append_singleton cs c ih =>
    have hinit := ih fun e he => h e (List.mem_append_left _ he)
    have hlast := h c (List.mem_append_right _ List.mem_cons_self)
    rw [ofDigits_append_digit, List.forall_mem_append, List.forall_mem_singleton, ← hinit]
    constructor
    · intro hzero
      exact ⟨by omega, eq_zero_of_isDigit hlast (by omega)⟩
    · rintro ⟨hzero, rfl⟩
      rw [hzero]
      rfl

end Text

namespace Numeral
variable {n : Numeral} {point : List Char} {c : Char}

/-- How the point may be written: it may be left out where no digit follows it. -/
def points (n : Numeral) : List (List Char) := if n.fraction = [] then [[], ['.']] else [['.']]

theorem mem_points : point ∈ n.points ↔ point = ['.'] ∨ point = [] ∧ n.fraction = [] := by
  unfold points
  split
  · next hf => simp [hf, or_comm]
  · next hf => simp [hf]

theorem mem_written (hall : ∀ c ∈ n.whole ++ n.fraction, c.isDigit) (hp : point ∈ n.points)
    (hc : c ∈ n.whole ++ (point ++ n.fraction)) : c.isDigit ∨ c = '.' := by
  rw [List.mem_append, List.mem_append] at hc
  rcases hc with hc | hc | hc
  · exact .inl (hall c (List.mem_append_left _ hc))
  · rcases mem_points.1 hp with rfl | ⟨rfl, -⟩
    · exact .inr (List.mem_singleton.1 hc)
    · cases hc
  · exact .inl (hall c (List.mem_append_right _ hc))

theorem value_eq_zero_iff (he : n.exponent = none) :
    n.value = 0 ↔ ofDigits (n.whole ++ n.fraction) = 0 := by
  have hpow : (10 : ℚ) ^ n.fraction.length ≠ 0 := by positivity
  have hmagnitude : n.magnitude = 0 ↔ ofDigits (n.whole ++ n.fraction) = 0 := by
    rw [magnitude_of_none he, div_eq_zero_iff, or_iff_left hpow, Nat.cast_eq_zero]
  rw [value, ← hmagnitude]
  split
  · exact neg_eq_zero
  · rfl

theorem value_lt_zero_iff (he : n.exponent = none) :
    n.value < 0 ↔ n.negative ∧ ofDigits (n.whole ++ n.fraction) ≠ 0 := by
  have hnonneg : 0 ≤ n.magnitude := by
    rw [magnitude_of_none he]
    positivity
  rw [Ne, ← value_eq_zero_iff he, value]
  split
  · next hneg =>
    rw [neg_lt_zero, neg_eq_zero, and_iff_right hneg]
    exact lt_iff_le_and_ne.trans ((and_iff_right hnonneg).trans ne_comm)
  · next hneg => simp [hneg, hnonneg]

end Numeral

namespace Decimal
variable {d : Decimal} {ds cs whole fraction sign point : List Char} {seen negative : Bool}
  {n : Numeral}

/-- There may be no digit before the point. -/
theorem readWhole_point (hd : d.Holds negative ds 0) (hcs : ∀ c ∈ cs, c.isDigit)
    (hfraction : ∀ c ∈ fraction, c.isDigit) (hseen : seen ∨ cs ++ fraction ≠ [])
    (hdigits : ofDigits (ds ++ cs ++ fraction) < limit) (hplaces : fraction.length ≤ maxScale) :
    ∃ r, readWhole d seen (cs ++ '.' :: fraction) = some r ∧
      r.Holds negative (ds ++ cs ++ fraction) fraction.length := by
  rcases cs with _ | ⟨c, cs⟩
  · rw [List.append_nil] at hdigits ⊢
    obtain ⟨r, hr, hread⟩ := readFraction_of_fits hd hfraction hseen hdigits (by rwa [Nat.zero_add])
    rw [Nat.zero_add] at hread
    exact ⟨r, hr, hread⟩
  · have hsome : seen ∨ c :: cs ≠ [] := .inr (by simp)
    obtain ⟨whole, hwhole, hread⟩ := readWhole_append hd hcs hsome
      (Nat.lt_of_le_of_lt (ofDigits_le_append _ fraction) hdigits) ('.' :: fraction)
    obtain ⟨r, hr, hread'⟩ :=
      readFraction_of_fits hread hfraction (.inl rfl) hdigits (by rwa [Nat.zero_add])
    rw [Nat.zero_add] at hread'
    exact ⟨r, hwhole.trans hr, hread'⟩

/-- Digits that fit are read as they are, wherever the point is. -/
theorem ofChars?_written (hdigits : isDigits (n.whole ++ n.fraction)) (hs : sign ∈ n.signs)
    (hp : point ∈ n.points) (hfits : ofDigits (n.whole ++ n.fraction) < limit)
    (hplaces : n.fraction.length ≤ maxScale) :
    ∃ d, ofChars? (sign ++ (n.whole ++ (point ++ n.fraction))) = some d ∧
      d.Holds n.negative (n.whole ++ n.fraction) n.fraction.length := by
  obtain ⟨hne, hall⟩ := isDigits_iff.1 hdigits
  obtain ⟨hwhole, hfraction⟩ := List.forall_mem_append.1 hall
  rw [ofChars?_signed (fun _ => Numeral.mem_written hall hp) hs]
  rcases Numeral.mem_points.1 hp with rfl | ⟨rfl, hf⟩
  · exact readWhole_point (holds_zero n.negative) hwhole hfraction (.inr hne) hfits hplaces
  · rw [hf, List.append_nil] at hne hfits
    have hsome : false ∨ n.whole ≠ [] := .inr hne
    obtain ⟨r, hr, hread⟩ := readWhole_append (holds_zero n.negative) hwhole hsome hfits []
    rw [hf, List.append_nil, List.append_nil]
    exact ⟨r, List.append_nil n.whole ▸ hr, hread⟩

namespace Holds

/-- Of the mantissa the places are the fraction and the rest is the whole part. -/
theorem parts (hd : d.Holds negative (whole ++ fraction) fraction.length)
    (hfraction : ∀ c ∈ fraction, c.isDigit) :
    d.mantissa % d.unit = ofDigits fraction ∧ d.mantissa / d.unit = ofDigits whole := by
  have hlt := ofDigits_lt hfraction
  have hunit : d.unit = 10 ^ fraction.length := by
    rw [unit, hd.scale_eq]
    rfl
  rw [hd.mantissa_eq, ofDigits_append, hunit, Nat.mul_comm]
  exact ⟨by rw [Nat.mul_add_mod, Nat.mod_eq_of_lt hlt],
    by rw [Nat.mul_add_div (by omega), Nat.div_eq_of_lt hlt, Nat.add_zero]⟩

theorem isWhole_iff (hd : d.Holds negative (whole ++ fraction) fraction.length)
    (hfraction : ∀ c ∈ fraction, c.isDigit) : d.isWhole ↔ ∀ c ∈ fraction, c = '0' := by
  rw [isWhole, (hd.parts hfraction).1, beq_iff_eq, ofDigits_eq_zero_iff hfraction]

end Holds
end Decimal

namespace Volume
variable {n : Numeral} {d : Decimal} {sign point : List Char} {offered : String}

/-- What becomes of a decimal that has the digits of a number. -/
theorem ofDecimal_of_holds (offered : String)
    (hd : d.Holds n.negative (n.whole ++ n.fraction) n.fraction.length)
    (he : n.exponent = none) (hfraction : ∀ c ∈ n.fraction, c.isDigit) :
    (n.value = 0 → ofDecimal offered d = .ok zero) ∧
    (n.value < 0 → ofDecimal offered d = .error (.negative offered)) ∧
    (0 < n.value → (¬ ∀ c ∈ n.fraction, c = '0') →
      ofDecimal offered d = .error (.fractional offered)) ∧
    (0 < n.value → (∀ c ∈ n.fraction, c = '0') →
      ∃ v, ofDecimal offered d = .ok v ∧ v.units = ofDigits n.whole) := by
  have hzero : d.mantissa = 0 ↔ n.value = 0 := by
    rw [hd.mantissa_eq, Numeral.value_eq_zero_iff he]
  have hneg : n.value < 0 ↔ d.negative ∧ ¬ d.mantissa = 0 := by
    rw [Numeral.value_lt_zero_iff he, hd.negative_eq, hd.mantissa_eq]
  have hpos : 0 < n.value → ¬ d.mantissa = 0 ∧ ¬ d.negative := by
    intro hlt
    have hne : ¬ d.mantissa = 0 := fun hm => ne_of_gt hlt (hzero.1 hm)
    exact ⟨hne, fun hn => lt_asymm hlt (hneg.2 ⟨hn, hne⟩)⟩
  unfold ofDecimal
  refine ⟨fun h => if_pos (hzero.2 h), fun h => ?_, fun h hf => ?_, fun h hf => ?_⟩
  · obtain ⟨hn, hm⟩ := hneg.1 h
    rw [if_neg hm, if_pos hn]
  · obtain ⟨hm, hn⟩ := hpos h
    rw [← hd.isWhole_iff hfraction] at hf
    simp [hm, hn, hf]
  · obtain ⟨hm, hn⟩ := hpos h
    rw [← hd.isWhole_iff hfraction] at hf
    simp [hm, hn, hf, (hd.parts hfraction).2]

/-- Digits alone are not read as a decimal, but come to the same. -/
theorem ofText_of_written_digits (hf : n.fraction = []) (hwhole : isDigits n.whole)
    (ht : trim offered.toList = n.whole) (hfits : ofDigits n.whole < Decimal.limit) :
    ∃ v, ofText offered = .ok v ∧ v.units = ofDigits (n.whole ++ n.fraction) := by
  have hlt : ofDigits n.whole < limit := Nat.lt_trans hfits (by decide)
  rw [hf, List.append_nil, ofText_of_digits (ht ▸ hwhole), ht, ofNat?, dif_pos hlt]
  exact ⟨_, rfl, rfl⟩

/-- A number that fits a decimal is told apart by its value, however it is written: zero of either
sign is zero, what is below zero is negative, what has a digit other than zero behind the point is
fractional, and all else is the volume before the point. It is never too large. -/
theorem ofText_classifies (he : n.exponent = none) (hdigits : isDigits (n.whole ++ n.fraction))
    (hs : sign ∈ n.signs) (hp : point ∈ n.points)
    (ht : trim offered.toList = sign ++ (n.whole ++ (point ++ n.fraction)))
    (hfits : ofDigits (n.whole ++ n.fraction) < Decimal.limit)
    (hplaces : n.fraction.length ≤ Decimal.maxScale) :
    (n.value = 0 → ofText offered = .ok zero) ∧
    (n.value < 0 → ofText offered = .error (.negative offered)) ∧
    (0 < n.value → (¬ ∀ c ∈ n.fraction, c = '0') →
      ofText offered = .error (.fractional offered)) ∧
    (0 < n.value → (∀ c ∈ n.fraction, c = '0') →
      ∃ v, ofText offered = .ok v ∧ v.units = ofDigits n.whole) ∧
    ∀ t, ofText offered ≠ .error (.overflow t) := by
  by_cases hplain : isDigits (trim offered.toList)
  · have hall := (isDigits_iff.1 (ht ▸ hplain)).2
    obtain ⟨rfl, hneg⟩ := Numeral.sign_eq_nil hs fun c hc => hall c (List.mem_append_left _ hc)
    rcases Numeral.mem_points.1 hp with rfl | ⟨rfl, hf⟩
    · exact absurd (hall '.' (by simp)) (by decide)
    rw [hf, List.append_nil, List.append_nil, List.nil_append] at ht
    rw [ht] at hplain
    rw [hf, List.append_nil] at hfits
    obtain ⟨v, hv, hunits⟩ := ofText_of_written_digits hf hplain ht hfits
    rw [hv, Numeral.value_eq_zero_iff he, Numeral.value_lt_zero_iff he, ← hunits]
    refine ⟨fun h => ?_, fun h => ?_, fun _ h => ?_, fun _ _ => ?_, by simp⟩
    · exact congrArg _ (Volume.ext h)
    · rw [hneg] at h
      cases h.1
    · exact absurd (by simp [hf]) h
    · rw [hf, List.append_nil] at hunits
      exact ⟨v, rfl, hunits⟩
  · obtain ⟨d, hd, hholds⟩ := Decimal.ofChars?_written hdigits hs hp hfits hplaces
    have hread : ofText offered = ofDecimal offered d := by
      rw [ofText_of_not_digits hplain, ht, hd]
    obtain ⟨-, hall⟩ := isDigits_iff.1 hdigits
    have hfraction := fun c hc => hall c (List.mem_append_right _ hc)
    obtain ⟨hzero, hbelow, hrest, hwhole⟩ := ofDecimal_of_holds offered hholds he hfraction
    rw [hread]
    exact ⟨hzero, hbelow, hrest, hwhole, fun t => (ofDecimal_ne offered t d).2⟩

/-- There is no digit before the point, and the number is below zero. -/
theorem ofText_classifies_sample :
    let n : Numeral := ⟨true, [], ['0', '5', '0'], none⟩
    (['-'] ∈ n.signs ∧ ['.'] ∈ n.points ∧ n.value < 0) ∧
      trim "\u00a0-.050 ".toList = ['-'] ++ (n.whole ++ (['.'] ++ n.fraction)) ∧
      ofText "\u00a0-.050 " = .error (.negative "\u00a0-.050 ") := by
  intro n
  have hsign : ['-'] ∈ n.signs := by decide
  have hpoint : ['.'] ∈ n.points := by decide
  have htrim : trim "\u00a0-.050 ".toList = ['-'] ++ (n.whole ++ (['.'] ++ n.fraction)) := by decide
  have hvalue : n.value < 0 := (Numeral.value_lt_zero_iff rfl).2 ⟨rfl, by decide⟩
  obtain ⟨-, hnegative, -⟩ :=
    ofText_classifies (n := n) rfl (by decide) hsign hpoint htrim (by decide) (by decide)
  exact ⟨⟨hsign, hpoint, hvalue⟩, htrim, hnegative hvalue⟩

end Volume

end FairShare
