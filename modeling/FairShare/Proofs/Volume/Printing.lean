import FairShare.Proofs.Decimal.Numeral
import FairShare.Volume

/-!
# A printed volume is read as that volume

Digits are no blanks, so there is nothing to trim, and their base-ten value is what was printed,
however many of them there are.
-/

namespace FairShare
namespace Text

variable {cs : List Char}

theorem not_isBlank_of_isDigit {c : Char} (hc : c.isDigit) : ¬ isBlank c := by
  obtain ⟨hlow, hhigh⟩ := Char.isDigit_iff_toNat.1 hc
  have hlow : 48 ≤ c.toNat := hlow
  have hhigh : c.toNat ≤ 57 := hhigh
  simp only [isBlank, Bool.or_eq_true, Bool.and_eq_true, decide_eq_true_eq, beq_iff_eq]
  omega

theorem dropWhile_isBlank (h : ∀ c ∈ cs, ¬ isBlank c) : cs.dropWhile isBlank = cs := by
  cases cs with
  | nil => rfl
  | cons c cs => exact List.dropWhile_cons_of_neg (h c List.mem_cons_self)

theorem trim_of_noBlanks (h : ∀ c ∈ cs, ¬ isBlank c) : trim cs = cs := by
  rw [trim, dropWhile_isBlank h, dropWhile_isBlank fun c hc => h c (List.mem_reverse.1 hc),
    List.reverse_reverse]

theorem trim_of_digits (h : ∀ c ∈ cs, c.isDigit) : trim cs = cs :=
  trim_of_noBlanks fun c hc => not_isBlank_of_isDigit (h c hc)

theorem isDigits_toDigits (n : Nat) : isDigits (Nat.toDigits 10 n) :=
  isDigits_iff.2 ⟨Nat.toDigits_ne_nil, fun _ => Nat.isDigit_of_mem_toDigits (by decide) (by decide)⟩

theorem ofDigits_toDigits (n : Nat) : ofDigits (Nat.toDigits 10 n) = n :=
  Nat.ofDigitChars_toDigits (by decide) (by decide)

end Text

namespace Volume

theorem ofNat?_units (v : Volume) : ofNat? v.units = some v := dif_pos v.units_lt

theorem toList_text (v : Volume) : v.text.toList = Nat.toDigits 10 v.units := Nat.toList_repr

theorem ofText_text (v : Volume) : ofText v.text = .ok v := by
  have hdigits := Text.isDigits_toDigits v.units
  have htrim := Text.trim_of_digits (Text.isDigits_iff.1 hdigits).2
  simp only [ofText, toList_text, htrim, hdigits, if_true, Text.ofDigits_toDigits, ofNat?_units]

end Volume
end FairShare
