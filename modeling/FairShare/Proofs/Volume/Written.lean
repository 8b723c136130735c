import FairShare.Proofs.Decimal.Spelling
import FairShare.Proofs.Volume.Reading
import Mathlib.Tactic.Ring

/-!
# Volumes of written numbers

A number without an exponent is read as a volume just if it is one, as long as its digits fit a
decimal, or if it is whole (`Volume.ofText_iff_of_fits`, `Volume.ofText_iff_of_whole`). With an exponent
that moves the point to the right the volume has to fit a decimal too (`Volume.ofText_iff_of_shiftUp`).
A number below a tenth is never a volume; but a decimal that has lost all its digits is zero, and a
number less than a unit of its last place is read as that (`Volume.tiny_of_ofText`).
-/

namespace FairShare.Volume

open Text

variable {n : Numeral} {v : Volume} {d r : Decimal} {digits : List Char} {x : ℚ} {offered : String}

theorem ofText_numeral_near (h : n.Legal) (hv : ofText n.text = .ok v) :
    |n.value - v.units| < 1 ∧ (n.FitsDecimal → n.value = v.units) := by
  obtain ⟨m, hm, hnear⟩ := ofText_near hv
  rw [Numeral.text, String.toList_ofList, h.trim_chars, h.dropUnderscores_chars,
    h.ofDecimalText?_chars] at hm
  cases hm
  exact hnear

/-! ### Digits alone -/

/-- A number that is written with digits only has no other parts. -/
theorem eq_of_isDigits (h : n.Legal) (hdigits : isDigits n.chars) : n = ⟨false, n.chars, [], none⟩ :=
  Option.some.inj <| h.ofDecimalText?_chars.symm.trans <|
    Numeral.ofDecimalText?_of_plain? (Numeral.plain?_of_isDigits hdigits)

theorem ofText_iff_of_digits (h : n.Legal) (hdigits : isDigits n.chars) :
    ofText n.text = .ok v ↔ n.value = v.units := by
  have hvalue : n.value = ofDigits n.chars := by
    conv_lhs => rw [eq_of_isDigits h hdigits]
    rw [Numeral.value, Numeral.magnitude_of_none rfl]
    simp
  rw [ofText, Numeral.text, String.toList_ofList, h.trim_chars]
  simp only [hdigits, if_true]
  rw [hvalue, Nat.cast_inj]
  constructor
  · intro hv
    split at hv
    · next hw =>
      cases hv
      exact (units_of_ofNat? hw).symm
    · cases hv
  · rintro hv
    rw [hv, ofNat?, dif_pos v.units_lt]

theorem not_isDigits_of_mem {cs : List Char} {c : Char} (hc : c ∈ cs) (h : c.isDigit = false) :
    ¬ isDigits cs := fun hcs => by
  rw [(isDigits_iff.1 hcs).2 c hc] at h
  nomatch h

theorem not_isDigits_of_exponent (he : n.exponent ≠ none) : ¬ isDigits n.chars := by
  obtain ⟨e, he⟩ := Option.ne_none_iff_exists'.1 he
  refine not_isDigits_of_mem (c := 'e') ?_ rfl
  rw [Numeral.chars_eq, he]
  exact List.mem_append_right _ List.mem_cons_self

theorem not_isDigits_of_fraction (hf : n.fraction ≠ []) : ¬ isDigits n.chars := by
  refine not_isDigits_of_mem (c := '.') ?_ rfl
  rw [Numeral.chars_eq, Numeral.plainChars, if_neg (by simpa using hf)]
  simp

/-! ### Numbers that are read as decimals -/

theorem ofText_iff_ofDecimal (h : n.Legal) (hno : ¬ isDigits n.chars) : ofText n.text = .ok v ↔
    ∃ d, Decimal.ofChars? n.chars = some d ∧ ofDecimal n.text d = .ok v := by
  rw [ofText, Numeral.text, String.toList_ofList, h.trim_chars]
  simp only [hno, Bool.false_eq_true, if_false]
  cases Decimal.ofChars? n.chars <;> simp

theorem approximates_of_ofChars? (h : n.Legal) (hd : Decimal.ofChars? n.chars = some d) :
    d.Approximates n := by
  obtain ⟨m, hm, happrox⟩ := Decimal.approximates_ofChars? hd
  rw [h.dropUnderscores_chars, h.ofDecimalText?_chars] at hm
  cases hm
  exact happrox

theorem eq_div_of_is (h : d.Is x) : x = d.mantissa / 10 ^ d.scale :=
  (eq_div_iff (by positivity)).2 h

/-- A number above zero that is a volume has no sign. -/
theorem negative_eq_false (hpos : 0 < n.magnitude) (hv : n.value = v.units) : n.negative = false := by
  refine Bool.eq_false_iff.2 fun hn => ?_
  rw [Numeral.value, if_pos hn] at hv
  have : (0 : ℚ) ≤ v.units := Nat.cast_nonneg _
  linarith

theorem magnitude_eq_units (hpos : 0 < n.magnitude) (hv : n.value = v.units) :
    n.magnitude = v.units := by
  rwa [Numeral.value, negative_eq_false hpos hv, if_neg Bool.false_ne_true] at hv

theorem ofDecimal_of_is (h : d.Is n.magnitude) (hneg : d.negative = n.negative)
    (hv : n.value = v.units) : ofDecimal offered d = .ok v := by
  have hunit : 0 < d.unit := Nat.pow_pos (by decide)
  have hmagnitude := eq_div_of_is h
  unfold ofDecimal
  split
  · next hzero =>
    have hunits : (v.units : ℚ) = 0 := by
      rw [← hv, Numeral.value, hmagnitude, hzero]
      simp
    rw [show v = zero from Volume.ext (by exact_mod_cast hunits)]
  · next hzero =>
    have hpos : 0 < n.magnitude := by
      rw [hmagnitude]
      have : (0 : ℚ) < d.mantissa := Nat.cast_pos.2 (Nat.pos_of_ne_zero hzero)
      positivity
    have hm : d.mantissa = v.units * d.unit := by
      rw [Decimal.Is, magnitude_eq_units hpos hv] at h
      exact_mod_cast h.symm
    have hwhole : d.isWhole := by
      rw [Decimal.isWhole, hm, Nat.mul_mod_left]
      rfl
    rw [hneg.trans (negative_eq_false hpos hv), if_neg Bool.false_ne_true, hwhole, Bool.not_true,
      if_neg Bool.false_ne_true]
    refine congrArg _ (Volume.ext ?_)
    show d.mantissa / d.unit = v.units
    rw [hm, Nat.mul_div_cancel _ hunit]

/-- The part before the exponent is read as it is. -/
theorem is_of_holds (hd : d.Holds n.negative (n.whole ++ n.fraction) n.fraction.length) :
    d.Is ({ n with exponent := none } : Numeral).magnitude := by
  rw [Numeral.magnitude_of_none rfl]
  exact Decimal.Reads.is_of_all hd.mantissa_eq hd.scale_eq

theorem ofText_iff_of_fits (h : n.Legal) (he : n.exponent = none)
    (hdigits : ofDigits (n.whole ++ n.fraction) < Decimal.limit)
    (hplaces : n.fraction.length ≤ Decimal.maxScale) :
    ofText n.text = .ok v ↔ n.value = v.units := by
  by_cases hno : isDigits n.chars
  · exact ofText_iff_of_digits h hno
  constructor
  · intro hv
    refine (ofText_numeral_near h hv).2 ⟨hdigits, hplaces, ?_⟩
    rw [Numeral.scaled, he]
    simp only [zero_sub]
    omega
  · intro hv
    obtain ⟨d, hd, hholds⟩ := Decimal.ofPlain?_of_fits h hdigits hplaces
    have hread : Decimal.ofChars? n.chars = some d := by
      rw [Decimal.ofChars?, Decimal.ofChars?_chars_of_none he, hd]
    have his := is_of_holds hholds
    rw [show ({ n with exponent := none } : Numeral) = n by rw [← he]] at his
    exact (ofText_iff_ofDecimal h hno).2 ⟨d, hread, ofDecimal_of_is his hholds.negative_eq hv⟩

/-- A whole number is a volume, whatever its length, unless it is below zero. -/
theorem ofText_iff_of_whole (h : n.Legal) (he : n.exponent = none) (hf : n.fraction = []) :
    ofText n.text = .ok v ↔ n.value = v.units := by
  have hplaces : n.fraction.length ≤ Decimal.maxScale := by
    rw [hf]
    decide
  rcases Nat.lt_or_ge (ofDigits (n.whole ++ n.fraction)) Decimal.limit with hdigits | hlarge
  · exact ofText_iff_of_fits h he hdigits hplaces
  cases hneg : n.negative with
  | false =>
    refine ofText_iff_of_digits h ?_
    rw [Numeral.chars_eq, Numeral.sign, hneg, if_neg Bool.false_ne_true, he, Numeral.exponentText,
      Numeral.plainChars, hf, List.isEmpty_nil, if_pos rfl, List.nil_append, List.append_nil,
      List.append_nil]
    exact h.whole
  | true =>
    have hvalue : n.value ≤ -1 := by
      rw [Numeral.value, hneg, if_pos rfl, Numeral.magnitude_of_none he, hf, List.length_nil,
        pow_zero, div_one]
      have : (1 : ℚ) ≤ ofDigits (n.whole ++ []) := by
        rw [hf] at hlarge
        exact_mod_cast (show 1 ≤ Decimal.limit by decide).trans hlarge
      linarith
    have hunits : (0 : ℚ) ≤ v.units := Nat.cast_nonneg _
    constructor
    · intro hv
      have := (abs_lt.1 (ofText_numeral_near h hv).1).1
      linarith
    · intro hv
      linarith

/-! ### Exponents -/

theorem unit_le_of_holds (hd : d.Holds n.negative (n.whole ++ n.fraction) n.fraction.length)
    (hunit : 10 ^ n.fraction.length ≤ ofDigits (n.whole ++ n.fraction)) : d.unit ≤ d.mantissa := by
  rw [Decimal.unit, hd.scale_eq, hd.mantissa_eq]
  exact hunit

/-- Moving the point to the right leaves the bounds only with the number. -/
theorem exists_shiftUp? {k : Nat} (hunit : d.unit ≤ d.mantissa)
    (hv : (d.mantissa : ℚ) * 10 ^ k = v.units * 10 ^ d.scale) (hlt : v.units < Decimal.limit) :
    ∃ r, d.shiftUp? k = some r := by
  have hnat : d.mantissa * 10 ^ k = v.units * 10 ^ d.scale := by exact_mod_cast hv
  have hpos : 0 < 10 ^ d.scale := Nat.pow_pos (by decide)
  unfold Decimal.shiftUp?
  split
  · exact Decimal.exists_ofParts? d.mantissa_lt ((Nat.sub_le ..).trans d.scale_le)
  · next hlong =>
    have hk : k = (k - d.scale) + d.scale := by omega
    rw [hk, Nat.pow_add, ← Nat.mul_assoc] at hnat
    have hmantissa : d.mantissa * 10 ^ (k - d.scale) = v.units :=
      Nat.eq_of_mul_eq_mul_right hpos hnat
    rw [if_neg fun hmax => ?_]
    · exact Decimal.exists_ofParts? (hmantissa.trans_lt hlt) (Nat.zero_le _)
    · have hle : 10 ^ 29 ≤ v.units := by
        calc 10 ^ 29 ≤ 10 ^ k := Nat.pow_le_pow_right (by decide) hmax
          _ = 10 ^ d.scale * 10 ^ (k - d.scale) := by
            rw [← Nat.pow_add, Nat.add_sub_cancel' (Nat.le_of_not_le hlong)]
          _ ≤ d.mantissa * 10 ^ (k - d.scale) := Nat.mul_le_mul_right _ hunit
          _ = v.units := hmantissa
      unfold Decimal.limit at hlt
      omega

/-- Apart from the exponent the number is the same. -/
theorem magnitude_of_exponent {negative : Bool} (he : n.exponent = some (negative, digits)) :
    n.magnitude =
      if negative then ({ n with exponent := none } : Numeral).magnitude / 10 ^ ofDigits digits
      else ({ n with exponent := none } : Numeral).magnitude * 10 ^ ofDigits digits := by
  have hn : n = { ({ n with exponent := none } : Numeral) with
      exponent := some (negative, digits) } := by
    rw [← he]
  conv_lhs => rw [hn]
  exact Numeral.magnitude_of_some rfl negative

/-- The volume is a decimal before it is a volume. -/
theorem units_lt_of_ofDecimal (h : ofDecimal offered d = .ok v) : v.units < Decimal.limit := by
  obtain ⟨hunits, -⟩ := ofDecimal_eq_ok h
  have hnat : d.mantissa = v.units * 10 ^ d.scale := by exact_mod_cast hunits
  have := Nat.le_mul_of_pos_right v.units (Nat.pow_pos (by decide) : 0 < 10 ^ d.scale)
  exact (hnat ▸ this).trans_lt d.mantissa_lt

theorem ofText_iff_of_shiftUp (h : n.Legal) (he : n.exponent = some (false, digits))
    (hdigits : ofDigits (n.whole ++ n.fraction) < Decimal.limit)
    (hplaces : n.fraction.length ≤ Decimal.maxScale)
    (hunit : 10 ^ n.fraction.length ≤ ofDigits (n.whole ++ n.fraction)) :
    ofText n.text = .ok v ↔ n.value = v.units ∧ v.units < Decimal.limit := by
  have hno : ¬ isDigits n.chars := not_isDigits_of_exponent (by simp [he])
  rw [ofText_iff_ofDecimal h hno]
  constructor
  · rintro ⟨d, hd, hv⟩
    refine ⟨(near_ofDecimal (approximates_of_ofChars? h hd) hv).2 ⟨hdigits, hplaces, ?_⟩,
      units_lt_of_ofDecimal hv⟩
    rw [Numeral.scaled, he]
    simp only
    omega
  · rintro ⟨hv, hlt⟩
    obtain ⟨d, hd, hholds⟩ := Decimal.ofPlain?_of_fits h hdigits hplaces
    have hplain := is_of_holds hholds
    have hmagnitude := magnitude_of_exponent he
    rw [if_neg Bool.false_ne_true] at hmagnitude
    have hmantissa := unit_le_of_holds hholds hunit
    have hpos : 0 < n.magnitude := by
      have hunit : 0 < d.unit := Nat.pow_pos (by decide)
      have : (0 : ℚ) < d.mantissa := Nat.cast_pos.2 (hunit.trans_le hmantissa)
      rw [hmagnitude, eq_div_of_is hplain]
      positivity
    obtain ⟨r, hr⟩ : ∃ r, d.shiftUp? (ofDigits digits) = some r := by
      refine exists_shiftUp? hmantissa ?_ hlt
      rw [← magnitude_eq_units hpos hv, hmagnitude, ← hplain]
      ring
    refine ⟨r, ?_, ofDecimal_of_is ?_ ?_ hv⟩
    · rw [Decimal.ofChars?_chars_of_some h he, hd]
      exact hr
    · rw [hmagnitude]
      exact hplain.shiftUp? hr
    · exact (Decimal.negative_shiftUp? hr).trans hholds.negative_eq

/-! ### Small numbers -/

/-- No whole number but zero is near a number below a tenth. -/
theorem mantissa_eq_zero (hv : ofDecimal offered d = .ok v) (hd : d.Near x) (hx : x < 1 / 10)
    (hscale : 1 ≤ d.scale) : d.mantissa = 0 := by
  obtain ⟨hunits, -⟩ := ofDecimal_eq_ok hv
  rcases Nat.eq_zero_or_pos v.units with hzero | hpos
  · rw [hzero, Nat.cast_zero, zero_mul] at hunits
    exact_mod_cast hunits
  · have hone : (1 : ℚ) ≤ v.units := by exact_mod_cast hpos
    have hten : (10 : ℚ) ≤ 10 ^ d.scale := by
      exact_mod_cast Nat.le_self_pow (Nat.ne_of_gt hscale) 10
    have hsmall := mul_lt_mul_of_pos_right hx (show (0 : ℚ) < 10 ^ d.scale by linarith)
    have hlarge := mul_le_mul_of_nonneg_right hone (show (0 : ℚ) ≤ 10 ^ d.scale by linarith)
    have := (abs_lt.1 hd).1
    linarith

theorem mantissa_shiftDown?_pos {k : Nat} (hunit : d.unit ≤ d.mantissa)
    (hr : d.shiftDown? k = some r) : 0 < r.mantissa := by
  have hpos : 0 < d.unit := Nat.pow_pos (by decide)
  unfold Decimal.shiftDown? at hr
  split at hr
  · nomatch hr
  · next hk =>
    obtain ⟨-, hm, -⟩ := Decimal.ofParts?_eq_some.1 hr
    rw [hm]
    split
    · next hlong =>
      have hle : Decimal.maxScale - k ≤ d.scale := by omega
      rw [Decimal.rescale, if_pos hle]
      refine Nat.div_pos (Nat.le_add_right_of_le (le_trans ?_ hunit)) (Nat.pow_pos (by decide))
      exact Nat.pow_le_pow_right (by decide) (Nat.sub_le ..)
    · exact hpos.trans_le hunit

/-- Moving the point to the left leaves a digit where there was one before the point. -/
theorem not_ofText_of_shiftDown (h : n.Legal) (he : n.exponent = some (true, digits))
    (hdigits : ofDigits (n.whole ++ n.fraction) < Decimal.limit)
    (hplaces : n.fraction.length ≤ Decimal.maxScale)
    (hunit : 10 ^ n.fraction.length ≤ ofDigits (n.whole ++ n.fraction))
    (hexponent : 1 ≤ ofDigits digits) (hx : n.magnitude < 1 / 10) : ofText n.text ≠ .ok v := by
  have hno : ¬ isDigits n.chars := not_isDigits_of_exponent (by simp [he])
  rw [Ne, ofText_iff_ofDecimal h hno]
  rintro ⟨r, hr, hv⟩
  have hnear := (approximates_of_ofChars? h hr).near
  obtain ⟨d, hd, hholds⟩ := Decimal.ofPlain?_of_fits h hdigits hplaces
  rw [Decimal.ofChars?_chars_of_some h he, hd] at hr
  have hr : d.shiftDown? (ofDigits digits) = some r := hr
  refine Nat.ne_of_gt (mantissa_shiftDown?_pos ?_ hr) (mantissa_eq_zero hv hnear hx ?_)
  · exact unit_le_of_holds hholds hunit
  · unfold Decimal.shiftDown? at hr
    split at hr
    · nomatch hr
    · rw [(Decimal.ofParts?_eq_some.1 hr).2.2]
      omega

theorem reads_of_ofChars? (h : n.Legal) (he : n.exponent = none)
    (hd : Decimal.ofChars? n.chars = some d) :
    d.Reads (n.whole ++ n.fraction) n.fraction.length := by
  have hdrop := h.dropUnderscores_chars
  rw [Decimal.ofChars?_chars_of_none he] at hd hdrop
  unfold Decimal.ofChars? at hd
  split at hd
  · next hplain =>
    cases hd
    obtain ⟨m, hm, hread⟩ := Decimal.ofPlain?_readFrom hplain
    rw [hdrop, h.plain?_chars] at hm
    cases hm
    exact hread.reads
  · rw [Decimal.ofScientific?, List.dropWhile_eq_nil_iff.2 h.not_mark] at hd
    cases hd

/-- What is read as zero without being zero is less than a unit of the last place there is. -/
theorem tiny_of_ofText (h : n.Legal) (he : n.exponent = none) (hf : n.fraction ≠ [])
    (hdigits : 0 < ofDigits (n.whole ++ n.fraction)) (hx : n.magnitude < 1 / 10)
    (hv : ofText n.text = .ok v) : n.magnitude * 10 ^ Decimal.maxScale < 1 := by
  obtain ⟨d, hd, hv⟩ := (ofText_iff_ofDecimal h (not_isDigits_of_fraction hf)).1 hv
  have hnear := (approximates_of_ofChars? h hd).near
  cases reads_of_ofChars? h he hd with
  | all hm hs =>
    have hscale : 1 ≤ d.scale := hs ▸ List.length_pos_iff.2 hf
    rw [mantissa_eq_zero hv hnear hx hscale] at hm
    omega
  | cut hout hfull _ =>
    rcases Nat.eq_zero_or_pos d.scale with hzero | hscale
    · have := (abs_lt.1 hnear).1
      rw [hzero, pow_zero, mul_one] at this
      have hm : (d.mantissa : ℚ) < 2 := by linarith
      have hm : d.mantissa < 2 := by exact_mod_cast hm
      unfold Decimal.IsFull Decimal.maxScale Decimal.limit at hfull
      omega
    · have hm := mantissa_eq_zero hv hnear hx hscale
      rw [Decimal.IsFull, hm] at hfull
      have hlast : d.scale = Decimal.maxScale := hfull.resolve_right (by decide)
      rw [Decimal.Near, hm, hlast, Nat.cast_zero, sub_zero] at hnear
      exact (abs_lt.1 hnear).2

end FairShare.Volume
