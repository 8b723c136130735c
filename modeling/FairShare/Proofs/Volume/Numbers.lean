import FairShare.Json.Records
import FairShare.Proofs.Json.Forms
import FairShare.Proofs.Json.Literals
import FairShare.Proofs.Volume.Written

/-!
# Numbers on the two routes

A number is read from a text as it is written, and from a value as it is handed on
(`Numeral.storedText`): one that is written as a shortest form, with a fraction or an exponent, is
handed on in positional notation. Whole digits are the same digits in both forms. Digits after the point
are as many in both and do not end in zero, so neither form is a whole number. What is left is the
exponent. Digits may be more than a decimal holds, and a text of more zeros than a decimal has places is
read as zero; but the point of a decimal cannot be moved that far (`Json.readText_iff_readValue`). So
there are numbers that only one of the routes reads (`Json.not_readText_iff_readValue`).
-/

namespace FairShare

open Text

namespace Numeral
variable {n : Numeral} {x : ScaledDigits}

theorem magnitude_nonneg (n : Numeral) : 0 ≤ n.magnitude := by
  unfold magnitude
  positivity

theorem abs_value (n : Numeral) : |n.value| = n.magnitude := by
  rw [value]
  split
  · rw [abs_neg, abs_of_nonneg n.magnitude_nonneg]
  · rw [abs_of_nonneg n.magnitude_nonneg]

theorem text_of_chars {cs : List Char} (h : n.chars = n.sign ++ cs) :
    n.text = String.ofList (n.sign ++ cs) := by
  rw [text, h]

theorem storedText_of_float (h : ¬ n.isInteger) : n.storedText =
    match floatForms? n.scaled with
    | some (fractional, positional) =>
      if n.chars = n.sign ++ fractional then String.ofList (n.sign ++ positional) else n.text
    | none => n.text := by
  rw [storedText, if_neg h]
  rfl

theorem floatForms?_eq_some {fractional positional : List Char}
    (h : floatForms? x = some (fractional, positional)) :
    (fractional = ['0', '.', '0'] ∧ positional = ['0']) ∨ ∃ f : Binary64, f.InRange ∧
      fractional = (f.shortest .toEven).fractional ∧ positional = (f.shortest .up).positional := by
  unfold floatForms? at h
  split at h
  · cases h
    exact .inl ⟨rfl, rfl⟩
  · obtain ⟨f, hf, h⟩ := Option.bind_eq_some_iff.1 h
    obtain ⟨hm, h⟩ := Option.ite_none_left_eq_some.1 h
    cases h
    exact .inr ⟨f, Binary64.inRange_of_nearest? hf hm, rfl, rfl⟩

/-- Where a number is not handed on as it is written. -/
theorem storedText_cases (hne : n.storedText ≠ n.text) :
    (n.fraction = [] ∧ n.exponent = none ∧ n.whole = ['0'] ∧ n.storedText = "0") ∨
    (n.chars = n.sign ++ ['0', '.', '0'] ∧ n.storedText = String.ofList (n.sign ++ ['0'])) ∨
    ∃ f : Binary64, f.InRange ∧ n.chars = n.sign ++ (f.shortest .toEven).fractional ∧
      n.storedText = String.ofList (n.sign ++ (f.shortest .up).positional) := by
  by_cases hinteger : n.isInteger
  · obtain ⟨hfraction, hexponent⟩ := Bool.and_eq_true_iff.1 hinteger
    rw [storedText, if_pos hinteger] at hne ⊢
    obtain ⟨hzero, -⟩ := Classical.not_imp.1 fun h => hne (ite_eq_right_iff.2 h)
    exact .inl ⟨List.isEmpty_iff.1 hfraction, Option.isNone_iff_eq_none.1 hexponent, hzero,
      if_pos hzero⟩
  · rw [storedText_of_float hinteger] at hne ⊢
    cases hforms : floatForms? n.scaled with
    | none =>
      rw [hforms] at hne
      exact absurd rfl hne
    | some forms =>
      obtain ⟨fractional, positional⟩ := forms
      rw [hforms] at hne
      simp only at hne ⊢
      obtain ⟨hchars, -⟩ := Classical.not_imp.1 fun h => hne (ite_eq_right_iff.2 h)
      rw [if_pos hchars]
      rcases floatForms?_eq_some hforms with ⟨rfl, rfl⟩ | ⟨f, hf, rfl, rfl⟩
      · exact .inr (.inl ⟨hchars, rfl⟩)
      · exact .inr (.inr ⟨f, hf, hchars, rfl⟩)

end Numeral

namespace Volume
variable {n : Numeral} {f : Binary64} {x y : ScaledDigits} {v : Volume}

/-! ### Positional notation -/

theorem ofText_positional_iff (hk : 0 ≤ x.exponent) (hm : n.magnitude = x.value) :
    ofText (String.ofList (n.sign ++ x.positional)) = .ok v ↔ n.value = v.units := by
  obtain ⟨m, hspells, he, hfraction⟩ := Numeral.exists_spells_whole n.negative hk
  rw [← hspells.text_eq, ← hspells.value_eq hm]
  exact ofText_iff_of_whole hspells.legal he hfraction

theorem not_ofText_positional (hk : x.exponent < 0) (hplaces : -Decimal.maxScale ≤ x.exponent)
    (hdigits : x.digits < Decimal.limit) (hdvd : ¬ 10 ∣ x.digits) :
    ofText (String.ofList (n.sign ++ x.positional)) ≠ .ok v := by
  obtain ⟨m, hspells, he, hlength, hm⟩ := Numeral.exists_spells_places n.negative hk
  rw [Ne, ← hspells.text_eq, ofText_iff_of_fits hspells.legal he (hm ▸ hdigits) (by omega)]
  intro hv
  have habs : x.value = v.units := by
    rw [← hspells.magnitude_eq, ← m.abs_value, hv, Nat.abs_cast]
  rw [ScaledDigits.value_of_neg hk, div_eq_iff (by positivity)] at habs
  have hnat : x.digits = v.units * 10 ^ (-x.exponent).toNat := by exact_mod_cast habs
  refine hdvd (hnat ▸ (dvd_pow_self 10 ?_).mul_left _)
  omega

/-! ### With a fraction or an exponent -/

theorem length_toDigits_le (hlt : x.digits < 10 ^ 18) : (Nat.toDigits 10 x.digits).length ≤ 18 :=
  (Nat.length_toDigits_le_iff (by decide) (by decide)).2 hlt

/-- One digit before the point, and no more after it than a decimal has places for. -/
theorem scientific_fits (h : n.Legal) (hchars : n.chars = n.sign ++ x.scientific)
    (hpos : 0 < x.digits) (hlt : x.digits < 10 ^ 18) :
    n.magnitude = x.value ∧ n.exponent = some (Numeral.leading x) ∧
      ofDigits (n.whole ++ n.fraction) < Decimal.limit ∧ n.fraction.length ≤ Decimal.maxScale ∧
      10 ^ n.fraction.length ≤ ofDigits (n.whole ++ n.fraction) := by
  have hlength := length_toDigits_le hlt
  obtain ⟨m, hspells, he, hplaces, hdigits⟩ := Numeral.exists_spells_scientific n.negative x
  obtain rfl := hspells.eq h hchars
  refine ⟨hspells.magnitude_eq, he, hdigits ▸ hlt.trans (by decide), ?_, ?_⟩
  · unfold Decimal.maxScale
    omega
  · rw [hdigits, show n.fraction.length = (Nat.toDigits 10 x.digits).length - 1 by omega]
    exact ScaledDigits.pow_le_digits hpos

/-- Whole digits, with a point and a zero or with an exponent. -/
theorem ofText_fractional_iff (h : n.Legal) (hchars : n.chars = n.sign ++ x.fractional)
    (hk : 0 ≤ x.exponent) (hpos : 0 < x.digits) (hlt : x.digits < 10 ^ 18) :
    n.magnitude = x.value ∧ (ofText n.text = .ok v ↔
      n.value = v.units ∧ (n.exponent = none ∨ v.units < Decimal.limit)) := by
  have hone : 0 < (Nat.toDigits 10 x.digits).length := Nat.length_toDigits_pos
  have hplace : x.leadingPlace = (Nat.toDigits 10 x.digits).length + x.exponent - 1 := rfl
  rcases Int.lt_or_le 15 x.leadingPlace with hlong | hshort
  · rw [ScaledDigits.fractional_of_long (.inr hlong)] at hchars
    obtain ⟨hm, he, hdigits, hplaces, hunit⟩ := scientific_fits h hchars hpos hlt
    rw [Numeral.leading, decide_eq_false (by omega)] at he
    rw [ofText_iff_of_shiftUp h he hdigits hplaces hunit, or_iff_right (by simp [he])]
    exact ⟨hm, Iff.rfl⟩
  · rw [ScaledDigits.fractional_of_short (by omega) hshort, if_pos hk] at hchars
    obtain ⟨m, hspells, he, hfraction, hdigits⟩ := Numeral.exists_spells_pointZero n.negative hk
    obtain rfl := hspells.eq h hchars
    refine ⟨hspells.magnitude_eq, ?_⟩
    have hsmall : x.digits * 10 ^ x.exponent.toNat < 10 ^ 16 := by
      have hbound := ScaledDigits.value_lt (k := 16) hpos (by omega)
      rw [ScaledDigits.value_of_nonneg hk] at hbound
      exact_mod_cast hbound
    rw [ofText_iff_of_fits h he ?_ ?_]
    · exact (and_iff_left (.inl he)).symm
    · rw [hdigits]
      unfold Decimal.limit
      omega
    · rw [hfraction]
      decide

/-- Digits after the point, and some of them not zero. -/
theorem not_ofText_fractional (h : n.Legal) (hchars : n.chars = n.sign ++ x.fractional)
    (hk : x.exponent < 0) (hpos : 0 < x.digits) (hlt : x.digits < 10 ^ 18) (hdvd : ¬ 10 ∣ x.digits)
    (hlarge : x.leadingPlace ≤ 15) :
    n.magnitude = x.value ∧ (n.exponent = none ↔ -5 ≤ x.leadingPlace) ∧ ofText n.text ≠ .ok v := by
  have hlength := length_toDigits_le hlt
  have hone : 0 < (Nat.toDigits 10 x.digits).length := Nat.length_toDigits_pos
  have hplace : x.leadingPlace = (Nat.toDigits 10 x.digits).length + x.exponent - 1 := rfl
  have hlimit : x.digits < Decimal.limit := hlt.trans (by decide)
  rcases Int.lt_or_le x.leadingPlace (-5) with hlong | hshort
  · rw [ScaledDigits.fractional_of_long (.inl hlong)] at hchars
    obtain ⟨hm, he, hdigits, hplaces, hunit⟩ := scientific_fits h hchars hpos hlt
    refine ⟨hm, iff_of_false (by simp [he]) (by omega), ?_⟩
    rw [Numeral.leading, decide_eq_true (by omega)] at he
    refine not_ofText_of_shiftDown h he hdigits hplaces hunit ?_ ?_
    · rw [ofDigits_toDigits]
      omega
    · have hsmall := ScaledDigits.value_lt (k := -1) hpos (by omega)
      rw [hm]
      norm_num at hsmall ⊢
      exact hsmall
  · rw [ScaledDigits.fractional_of_short hshort hlarge, if_neg (Int.not_le.2 hk)] at hchars
    obtain ⟨m, hspells, he, -⟩ := Numeral.exists_spells_places n.negative hk
    obtain rfl := hspells.eq h hchars
    refine ⟨hspells.magnitude_eq, iff_of_true he hshort, ?_⟩
    rw [Numeral.text_of_chars hchars]
    refine not_ofText_positional hk ?_ hlimit hdvd
    unfold Decimal.maxScale
    omega

/-! ### Both forms -/

theorem tiny_of_positional (hk : x.exponent < 0) (hpos : 0 < x.digits) (hsmall : x.value < 1 / 10)
    (hv : ofText (String.ofList (n.sign ++ x.positional)) = .ok v) :
    x.value * 10 ^ Decimal.maxScale < 1 := by
  obtain ⟨m, hspells, he, hlength, hdigits⟩ := Numeral.exists_spells_places n.negative hk
  have hfraction : m.fraction ≠ [] := List.length_pos_iff.1 (by omega)
  rw [← hspells.text_eq] at hv
  rw [← hspells.magnitude_eq] at hsmall ⊢
  exact tiny_of_ofText hspells.legal he hfraction (hdigits ▸ hpos) hsmall hv

/-- One more than a number below a power of ten is that power or below it too. -/
theorem tiny_of_adjacent (hexp : x.exponent = y.exponent) (hnext : x.digits ≤ y.digits + 1)
    (hpos : 0 < y.digits) (hdvd : ¬ 10 ∣ x.digits) (h : y.value * 10 ^ Decimal.maxScale < 1) :
    x.value * 10 ^ Decimal.maxScale < 1 := by
  have hshift : ∀ z : ScaledDigits, z.exponent = y.exponent →
      z.value * 10 ^ Decimal.maxScale = z.digits * 10 ^ (y.exponent + Decimal.maxScale) := by
    intro z hz
    rw [ScaledDigits.value, hz, zpow_add₀ (by norm_num), zpow_natCast, mul_assoc]
  rw [hshift y rfl] at h
  rw [hshift x hexp]
  rcases Int.lt_or_le (y.exponent + Decimal.maxScale) 0 with hneg | hle
  · obtain ⟨j, hj⟩ := Int.eq_ofNat_of_zero_le (Int.neg_nonneg.2 hneg.le)
    rw [show y.exponent + Decimal.maxScale = -(j : Int) by omega, zpow_neg, zpow_natCast,
      ← div_eq_mul_inv, div_lt_one (by positivity)] at h ⊢
    have hy : y.digits < 10 ^ j := by exact_mod_cast h
    -- the power itself would end in zero
    have hx : x.digits ≠ 10 ^ j := by
      intro heq
      exact hdvd (heq ▸ dvd_pow_self 10 (by omega))
    exact_mod_cast (show x.digits < 10 ^ j by omega)
  · have hone : (1 : ℚ) ≤ y.digits := by exact_mod_cast hpos
    have hpow : (1 : ℚ) ≤ 10 ^ (y.exponent + Decimal.maxScale) := one_le_zpow₀ (by norm_num) hle
    exact absurd h (not_lt.2 (one_le_mul_of_one_le_of_one_le hone hpow))

theorem small_of_adjacent (hexp : x.exponent = y.exponent) (hnext : y.digits ≤ x.digits + 1)
    (hpos : 0 < x.digits) (h : x.leadingPlace < -5) : y.value < 1 / 10 := by
  have hsmall := ScaledDigits.value_lt hpos h
  have hdouble : (y.digits : ℚ) ≤ 2 * x.digits := by
    exact_mod_cast (show y.digits ≤ 2 * x.digits by omega)
  have htwice : y.value ≤ 2 * x.value := by
    rw [ScaledDigits.value, ScaledDigits.value, hexp, ← mul_assoc]
    exact mul_le_mul_of_nonneg_right hdouble (by positivity)
  norm_num at hsmall ⊢
  linarith

/-- Whole digits are the same digits in both forms, and a volume in both if a decimal holds them. -/
theorem ofText_iff_of_shortest (h : n.Legal) (hf : f.InRange) (hx : f.Shortest x)
    (hchars : n.chars = n.sign ++ x.fractional) (hk : 0 ≤ x.exponent) :
    ofText n.text = .ok v ↔ ofText (String.ofList (n.sign ++ x.positional)) = .ok v ∧
      (n.exponent = none ∨ v.units < Decimal.limit ∧ 1 ≤ |n.value| * 10 ^ Decimal.maxScale) := by
  have hpos := hx.digits_pos hf
  obtain ⟨hm, hiff⟩ := ofText_fractional_iff (v := v) h hchars hk hpos (hx.digits_lt hf)
  have hlarge : 1 ≤ |n.value| * 10 ^ Decimal.maxScale := by
    have hone : 1 ≤ x.digits * 10 ^ x.exponent.toNat := Nat.mul_pos hpos (Nat.pow_pos (by decide))
    rw [Numeral.abs_value, hm, ScaledDigits.value_of_nonneg hk]
    exact one_le_mul_of_one_le_of_one_le (by exact_mod_cast hone) (one_le_pow₀ (by norm_num))
  rw [ofText_positional_iff hk hm, hiff, and_iff_left hlarge]

/-- Where there are digits after the point neither form is a volume, unless the point is moved that
far to the left that only zeros are read. -/
theorem not_ofText_of_shortest (h : n.Legal) (hf : f.InRange) (hx : f.Shortest x)
    (hy : f.Shortest y) (hexp : x.exponent = y.exponent)
    (hchars : n.chars = n.sign ++ x.fractional) (hk : x.exponent < 0) :
    ofText n.text ≠ .ok v ∧ (ofText (String.ofList (n.sign ++ y.positional)) = .ok v →
      n.exponent ≠ none ∧ |n.value| * 10 ^ Decimal.maxScale < 1) := by
  have hpos := hx.digits_pos hf
  have hlt := hx.digits_lt hf
  have hyk : y.exponent < 0 := hexp ▸ hk
  have hypos := hy.digits_pos hf
  have hlarge : x.leadingPlace ≤ 15 := by
    refine Int.not_lt.1 fun hplace => Int.not_le.2 hk (hx.exponent_nonneg hf ?_)
    exact_mod_cast ScaledDigits.le_value (k := 16) hpos hplace
  obtain ⟨hm, he, hno⟩ := not_ofText_fractional h hchars hk hpos hlt hx.not_dvd hlarge
  refine ⟨hno, fun hv => ?_⟩
  rcases Int.lt_or_le x.leadingPlace (-5) with hsmall | hshort
  · refine ⟨fun hnone => Int.not_le.2 hsmall (he.1 hnone), ?_⟩
    -- both are next to the same multiple, so they differ by one at most
    have hbelow := hx.adjacent
    have hbelow' := hy.adjacent
    rw [← hexp] at hbelow'
    rw [Numeral.abs_value, hm]
    refine tiny_of_adjacent hexp (by omega) hypos hx.not_dvd ?_
    exact tiny_of_positional hyk hypos (small_of_adjacent hexp (by omega) hpos hsmall) hv
  · have hlength := length_toDigits_le hlt
    have hplaces : -Decimal.maxScale ≤ y.exponent := by
      rw [ScaledDigits.leadingPlace] at hshort
      unfold Decimal.maxScale
      omega
    have hlimit : y.digits < Decimal.limit := (hy.digits_lt hf).trans (by decide)
    exact absurd hv (not_ofText_positional hyk hplaces hlimit hy.not_dvd)

theorem ofText_iff_of_forms (h : n.Legal) (hf : f.InRange)
    (hchars : n.chars = n.sign ++ (f.shortest .toEven).fractional) : ofText n.text = .ok v ↔
    ofText (String.ofList (n.sign ++ (f.shortest .up).positional)) = .ok v ∧
      (n.exponent = none ∨ v.units < Decimal.limit ∧ 1 ≤ |n.value| * 10 ^ Decimal.maxScale) := by
  have hx := (hf.shortest .toEven).1
  rcases Int.lt_or_le (f.shortest .toEven).exponent 0 with hk | hk
  · obtain ⟨hno, htiny⟩ :=
      not_ofText_of_shortest h hf hx (hf.shortest .up).1 hf.exponent_shortest hchars hk
    refine iff_of_false hno ?_
    rintro ⟨hv, hnone | ⟨-, hlarge⟩⟩
    · exact (htiny hv).1 hnone
    · exact not_lt.2 hlarge (htiny hv).2
  · rw [← ScaledDigits.eq_of_parts (hf.digits_shortest hk) hf.exponent_shortest]
    exact ofText_iff_of_shortest h hf hx hchars hk

/-- The form that is handed on is read wherever the one that is written is. -/
theorem ofText_iff_of_storedText (h : n.Legal) : ofText n.text = .ok v ↔
    ofText n.storedText = .ok v ∧ (n.exponent = none ∨ n.storedText = n.text ∨
      v.units < Decimal.limit ∧ 1 ≤ |n.value| * 10 ^ Decimal.maxScale) := by
  by_cases hne : n.storedText = n.text
  · rw [hne]
    exact (and_iff_left (.inr (.inl rfl))).symm
  rcases Numeral.storedText_cases hne with
    ⟨hfraction, he, hwhole, hstored⟩ | ⟨hchars, hstored⟩ | ⟨f, hf, hchars, hstored⟩
  · obtain ⟨negative, whole, fraction, exponent⟩ := n
    cases hfraction
    cases he
    cases hwhole
    rw [hstored, and_iff_left (.inl rfl)]
    cases negative <;> rfl
  · -- the characters are those of a zero with one place, so there is no exponent
    have hzero : (⟨n.negative, ['0'], ['0'], none⟩ : Numeral).Legal :=
      ⟨rfl, fun _ => isDigit_of_mem_zeros (k := 1), fun _ he => nomatch he⟩
    have hn : n = ⟨n.negative, ['0'], ['0'], none⟩ := h.eq_of_chars hzero <| by
      rw [hchars, Numeral.chars_eq, Numeral.exponentText, List.append_nil]
      rfl
    have he : n.exponent = none := by rw [hn]
    rw [hstored, Numeral.text_of_chars hchars, and_iff_left (.inl he), Numeral.sign]
    cases n.negative <;> rfl
  · rw [ofText_iff_of_forms h hf hchars, ← hstored, or_iff_right hne]

end Volume

namespace Json
variable {n : Numeral} {v : Volume} {s : String}

theorem decode_number (route : Route) (depth : Nat) : Volume.decode route depth (.number n) =
    (Volume.ofText (match route with | .text => n.text | .value => n.storedText)).mapError
      .badVolume := by
  unfold Volume.decode
  cases route with
  | text => simp only [Decoder.volumeText, bind, Except.bind]
  | value => simp only [Decoder.volumeText, bind, Except.bind]

theorem readText_number (h : ofText? s = some (.number n)) :
    readText Volume.decode s = .ok v ↔ Volume.ofText n.text = .ok v := by
  rw [readText, h]
  simp only [decode_number]
  cases Volume.ofText n.text <;> simp [Except.mapError]

theorem readValue_number (h : ofText? s = some (.number n)) :
    readValue Volume.decode s = .ok v ↔ Volume.ofText n.storedText = .ok v := by
  have hvalue : (ofText? s).bind valueOf? = some (.number n) := by
    rw [h]
    rfl
  rw [readValue, hvalue]
  simp only [decodeValue, decode_number]
  cases Volume.ofText n.storedText <;> simp [Except.mapError]

/-- A number is the same volume on both routes, or none on either, unless it is handed on without its
exponent. Then the text route has to move the point of a decimal, and gives the volume only if that
fits, and only if the number is not less than a unit of the last place. -/
theorem readText_iff_readValue (h : ofText? s = some (.number n)) (v : Volume) :
    readText Volume.decode s = .ok v ↔ readValue Volume.decode s = .ok v ∧
      (n.exponent = none ∨ n.storedText = n.text ∨
        v.units < Decimal.limit ∧ 1 ≤ |n.value| * 10 ^ Decimal.maxScale) := by
  rw [readText_number h, readValue_number h]
  exact Volume.ofText_iff_of_storedText (legal_of_ofText? h)

theorem readText_iff_readValue_sample : ∃ n : Numeral, ofText? " 25e2 " = some (.number n) ∧
    readText Volume.decode " 25e2 " = .ok (.clamp 2500) ∧
    readValue Volume.decode " 25e2 " = .ok (.clamp 2500) ∧
    (readText Volume.decode " 25e2 " = .ok (.clamp 2500) ↔
      readValue Volume.decode " 25e2 " = .ok (.clamp 2500) ∧
        (n.exponent = none ∨ n.storedText = n.text ∨
          (Volume.clamp 2500).units < Decimal.limit ∧ 1 ≤ |n.value| * 10 ^ Decimal.maxScale)) :=
  ⟨⟨false, ['2', '5'], [], some (false, ['2'])⟩, rfl, (readText_number rfl).2 (by decide +kernel),
    (readValue_number rfl).2 (by decide +kernel), readText_iff_readValue rfl _⟩

/-- No decimal holds the number, but written without its exponent it is digits. -/
theorem not_readText_iff_readValue : ¬ ∀ (s : String) (n : Numeral) (v : Volume),
    ofText? s = some (.number n) →
      (readText Volume.decode s = .ok v ↔ readValue Volume.decode s = .ok v) := by
  intro h
  have hnumber : ofText? "1e30" = some (.number ⟨false, ['1'], [], some (false, ['3', '0'])⟩) := rfl
  have hiff := h _ _ (.clamp 1000000000000000000000000000000) hnumber
  rw [readText_number hnumber, readValue_number hnumber] at hiff
  exact absurd (hiff.2 (by decide +kernel)) (by decide +kernel)

end Json
end FairShare
