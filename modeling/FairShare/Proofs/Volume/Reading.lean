import FairShare.Proofs.Decimal.Reading
import FairShare.Volume

/-!
# What a text that is read as a volume says

A volume is made of a decimal that is zero, or positive and whole. If the text spells a number that
fits a decimal, then that number is the volume. But a decimal that has lost digits can be whole, or
zero, where the number that was spelled is not (`Volume.not_ofText_exact`). It is never off by a
unit, so a whole number is read as itself whatever its length (`Volume.ofText_near`).
-/

namespace FairShare.Volume

open Text

variable {offered : String} {d : Decimal} {v : Volume} {n : Numeral}

/-- The volume is the mantissa without its places, and has no sign. -/
theorem ofDecimal_eq_ok (h : ofDecimal offered d = .ok v) :
    (d.mantissa : ℚ) = v.units * 10 ^ d.scale ∧ (d.negative → d.mantissa = 0) := by
  unfold ofDecimal at h
  split at h
  · next hzero =>
    cases h
    exact ⟨by rw [hzero]; simp, fun _ => hzero⟩
  · split at h
    · cases h
    · next hpos =>
      split at h
      · cases h
      · next hwhole =>
        cases h
        refine ⟨?_, fun hneg => absurd hneg hpos⟩
        have hmod : d.mantissa % d.unit = 0 := by
          simpa [Decimal.isWhole] using hwhole
        exact_mod_cast (Nat.div_mul_cancel (Nat.dvd_of_mod_eq_zero hmod)).symm

/-- Where the sign counts, both numbers are zero. -/
theorem abs_value_sub (hd : d.Approximates n) (h : ofDecimal offered d = .ok v) :
    |n.value - v.units| * 10 ^ d.scale = |n.magnitude * 10 ^ d.scale - d.mantissa| := by
  obtain ⟨hunits, hneg⟩ := ofDecimal_eq_ok h
  have hpos : (0 : ℚ) < 10 ^ d.scale := by positivity
  rw [← abs_of_pos hpos, ← abs_mul, abs_of_pos hpos, sub_mul, ← hunits, Numeral.value]
  split
  · next hn =>
    rw [hneg (hd.negative_eq.trans hn), Nat.cast_zero, sub_zero, sub_zero, neg_mul, abs_neg]
  · rfl

theorem near_ofDecimal (hd : d.Approximates n) (h : ofDecimal offered d = .ok v) :
    |n.value - v.units| < 1 ∧ (n.FitsDecimal → n.value = v.units) := by
  have habs := abs_value_sub hd h
  have hpos : (1 : ℚ) ≤ 10 ^ d.scale := one_le_pow₀ (by norm_num)
  constructor
  · refine lt_of_le_of_lt ?_ hd.near
    rw [← habs]
    exact le_mul_of_one_le_right (abs_nonneg _) hpos
  · intro hfits
    rw [hd.is_of_fits hfits, sub_self, abs_zero] at habs
    rcases mul_eq_zero.1 habs with hzero | hzero
    · exact sub_eq_zero.1 (abs_eq_zero.1 hzero)
    · linarith

theorem units_of_ofNat? {k : Nat} (h : ofNat? k = some v) : v.units = k := by
  unfold ofNat? at h
  split at h
  · rw [← Option.some.inj h]
  · cases h

/-- Digits alone are not read as a decimal, and say how many units there are. -/
theorem exact_of_isDigits {cs : List Char} (hcs : isDigits cs) (h : ofNat? (ofDigits cs) = some v) :
    ∃ n, Numeral.ofDecimalText? (dropUnderscores cs) = some n ∧ n.value = v.units := by
  refine ⟨⟨false, cs, [], none⟩, ?_, ?_⟩
  · rw [dropUnderscores_of_digits (isDigits_iff.1 hcs).2]
    exact Numeral.ofDecimalText?_of_plain? (Numeral.plain?_of_isDigits hcs)
  · rw [Numeral.value, Numeral.magnitude_of_none rfl, units_of_ofNat? h]
    simp

/-- A text that is read as a volume spells, underscores apart, a number less than a unit away from
it, and the volume itself if that number fits a decimal. -/
theorem ofText_near (h : ofText offered = .ok v) :
    ∃ n, Numeral.ofDecimalText? (dropUnderscores (trim offered.toList)) = some n ∧
      |n.value - v.units| < 1 ∧ (n.FitsDecimal → n.value = v.units) := by
  unfold ofText at h
  simp only at h
  split at h
  · next hdigits =>
    split at h
    · next hw =>
      cases h
      obtain ⟨n, hn, hvalue⟩ := exact_of_isDigits hdigits hw
      refine ⟨n, hn, ?_, fun _ => hvalue⟩
      rw [hvalue, sub_self, abs_zero]
      exact one_pos
    · cases h
  · split at h
    · next hd =>
      obtain ⟨n, hn, happrox⟩ := Decimal.approximates_ofChars? hd
      exact ⟨n, hn, near_ofDecimal happrox h⟩
    · cases h

theorem ofText_near_sample : ofText " 1_0.50e1 " = .ok (.clamp 105) ∧
    ∃ n, Numeral.ofDecimalText? (dropUnderscores (trim " 1_0.50e1 ".toList)) = some n ∧
      |n.value - (clamp 105).units| < 1 ∧ (n.FitsDecimal → n.value = (clamp 105).units) :=
  ⟨by decide, ofText_near (by decide)⟩

/-- The last nine is one place too many. -/
theorem not_ofText_exact : ¬ ∀ (offered : String) (v : Volume), ofText offered = .ok v →
    ∃ n, Numeral.ofDecimalText? (dropUnderscores (trim offered.toList)) = some n ∧
      n.value = v.units := by
  intro h
  obtain ⟨n, hn, hvalue⟩ := h "1.99999999999999999999999999999" (.clamp 2) (by decide)
  have hread : Numeral.ofDecimalText?
      (dropUnderscores (trim "1.99999999999999999999999999999".toList)) =
      some ⟨false, ['1'], List.replicate 29 '9', none⟩ := by decide
  rw [hread] at hn
  cases hn
  have hdigits : ofDigits (['1'] ++ List.replicate 29 '9') = 199999999999999999999999999999 := by
    decide
  rw [Numeral.value, Numeral.magnitude_of_none rfl, hdigits, units_clamp] at hvalue
  norm_num [limit] at hvalue

end FairShare.Volume
