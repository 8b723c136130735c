import Mathlib.Algebra.Order.Field.Basic
import Mathlib.Algebra.Order.Ring.Rat
import Mathlib.Data.List.Induction
import Mathlib.Data.List.TakeWhile
import Mathlib.Tactic.FieldSimp
import FairShare.Decimal.Text
import FairShare.Json.Value

/-!
# The number that a text spells

A text without underscores spells a number if it is a sign, digits with at most one point among them,
and an exponent, whose digits may follow a minus, a plus, or both (`Numeral.ofDecimalText?`). The
number has any size and any number of places: it is the digits without the point, divided by ten for
each digit after the point, and ten to the exponent times that (`Numeral.value`).
-/

namespace FairShare

open Text

namespace Text

def dropUnderscores (cs : List Char) : List Char := cs.filter (· != '_')

def beforePoint (cs : List Char) : List Char := cs.takeWhile (· != '.')

def afterPoint (cs : List Char) : List Char := (cs.dropWhile (· != '.')).tail

variable {c : Char} {cs : List Char}

theorem dropUnderscores_cons (hc : c ≠ '_') (cs : List Char) :
    dropUnderscores (c :: cs) = c :: dropUnderscores cs :=
  List.filter_cons_of_pos (bne_iff_ne.2 hc)

theorem dropUnderscores_underscore (cs : List Char) :
    dropUnderscores ('_' :: cs) = dropUnderscores cs := rfl

theorem beforePoint_cons (hc : c ≠ '.') (cs : List Char) :
    beforePoint (c :: cs) = c :: beforePoint cs :=
  List.takeWhile_cons_of_pos (bne_iff_ne.2 hc)

theorem afterPoint_cons (hc : c ≠ '.') (cs : List Char) :
    afterPoint (c :: cs) = afterPoint cs := by
  rw [afterPoint, List.dropWhile_cons, if_pos (bne_iff_ne.2 hc)]
  rfl

theorem mem_parts (hc : c ∈ cs) : c ∈ beforePoint cs ++ afterPoint cs ∨ c = '.' := by
  induction cs with
  | nil => nomatch hc
  | cons e cs ih =>
    by_cases he : e = '.'
    · subst he
      rcases List.mem_cons.1 hc with rfl | hc
      · exact .inr rfl
      · exact .inl hc
    · rw [beforePoint_cons he, afterPoint_cons he, List.cons_append, List.mem_cons]
      rcases List.mem_cons.1 hc with rfl | hc
      · exact .inl (.inl rfl)
      · exact (ih hc).imp .inr fun h => h

/-! ### Digits -/

theorem isDigits_iff : isDigits cs ↔ cs ≠ [] ∧ ∀ c ∈ cs, c.isDigit := by
  simp [isDigits]

theorem ne_of_isDigit {e : Char} (hc : c.isDigit) (he : e.isDigit = false) : c ≠ e := by
  rintro rfl
  exact Bool.false_ne_true (he.symm.trans hc)

theorem isExponentMark_of_isDigit (hc : c.isDigit) : Decimal.isExponentMark c = false := by
  rw [Decimal.isExponentMark, Bool.or_eq_false_iff, beq_eq_false_iff_ne, beq_eq_false_iff_ne]
  exact ⟨ne_of_isDigit hc rfl, ne_of_isDigit hc rfl⟩

theorem dropUnderscores_of_digits (h : ∀ c ∈ cs, c.isDigit) : dropUnderscores cs = cs :=
  List.filter_eq_self.2 fun c hc => bne_iff_ne.2 (ne_of_isDigit (h c hc) rfl)

theorem digit?_eq_some {k : Nat} : digit? c = some k ↔ c.isDigit ∧ k = c.toNat - 48 := by
  unfold digit?
  split
  · next hc =>
    rw [Option.some_inj, eq_comm]
    exact (and_iff_right hc).symm
  · next hc => exact ⟨nofun, fun h => absurd h.1 hc⟩

theorem sub_lt_of_isDigit (hc : c.isDigit) : c.toNat - 48 < 10 := by
  have hle : c.toNat ≤ 57 := (Char.isDigit_iff_toNat.1 hc).2
  omega

theorem ofDigits_append (as bs : List Char) :
    ofDigits (as ++ bs) = ofDigits as * 10 ^ bs.length + ofDigits bs := by
  induction bs using List.reverseRecOn with
  | nil => rw [List.append_nil, List.length_nil, pow_zero, Nat.mul_one]; rfl
  | append_singleton bs c ih =>
    rw [← List.append_assoc, ofDigits_append_digit, ofDigits_append_digit, ih,
      List.length_append, List.length_singleton, pow_succ, ← Nat.mul_assoc]
    omega

theorem ofDigits_lt (h : ∀ c ∈ cs, c.isDigit) : ofDigits cs < 10 ^ cs.length := by
  induction cs using List.reverseRecOn with
  | nil => decide
  | append_singleton cs c ih =>
    have hinit := ih fun e he => h e (List.mem_append_left _ he)
    have hlast := sub_lt_of_isDigit (h c (List.mem_append_right _ List.mem_cons_self))
    rw [ofDigits_append_digit, List.length_append, List.length_singleton, pow_succ]
    omega

/-- More digits make a number of more places, and less than one more where it was. -/
theorem ofDigits_append_bounds (as : List Char) (h : ∀ c ∈ cs, c.isDigit) :
    ofDigits as * 10 ^ cs.length ≤ ofDigits (as ++ cs) ∧
      ofDigits (as ++ cs) < (ofDigits as + 1) * 10 ^ cs.length := by
  have := ofDigits_lt h
  rw [ofDigits_append, Nat.succ_mul]
  omega

end Text

/-! ### Numbers as they are spelled -/

namespace Numeral

def magnitude (n : Numeral) : ℚ := n.scaled.digits * 10 ^ n.scaled.exponent

/-- The number that is spelled. -/
def value (n : Numeral) : ℚ := if n.negative then -n.magnitude else n.magnitude

/-- The digits are within the mantissa of a decimal, and neither the digits after the point nor the
exponent lead past its last place. -/
def FitsDecimal (n : Numeral) : Prop :=
  n.scaled.digits < Decimal.limit ∧ n.fraction.length ≤ Decimal.maxScale ∧
    -Decimal.maxScale ≤ n.scaled.exponent

/-- Digits with at most one point among them. -/
def unsigned? (negative : Bool) (cs : List Char) : Option Numeral :=
  if isDigits (beforePoint cs ++ afterPoint cs) then
    some ⟨negative, beforePoint cs, afterPoint cs, none⟩
  else none

def plain? : List Char → Option Numeral
  | '-' :: cs => unsigned? true cs
  | '+' :: cs => unsigned? false cs
  | cs => unsigned? false cs

def withoutPlus : List Char → List Char
  | '+' :: cs => cs
  | cs => cs

/-- Digits, with a plus before them or not. -/
def exponentDigits? (cs : List Char) : Option (List Char) :=
  if isDigits (withoutPlus cs) then some (withoutPlus cs) else none

/-- The sign and the digits of an exponent. A plus may follow a minus. -/
def exponent? : List Char → Option (Bool × List Char)
  | '-' :: cs => (exponentDigits? cs).map (true, ·)
  | cs => (exponentDigits? cs).map (false, ·)

/-- Reads a text without underscores, with an exponent if there is an `e` or an `E`. -/
def ofDecimalText? (cs : List Char) : Option Numeral := do
  let n ← plain? (cs.takeWhile (!Decimal.isExponentMark ·))
  match cs.dropWhile (!Decimal.isExponentMark ·) with
  | [] => some n
  | _ :: rest => (exponent? rest).map fun e => { n with exponent := some e }

variable {n : Numeral} {c : Char} {cs digits : List Char}

theorem magnitude_of_none (hn : n.exponent = none) :
    n.magnitude = ofDigits (n.whole ++ n.fraction) / 10 ^ n.fraction.length := by
  rw [magnitude, scaled, hn]
  simp only [zero_sub, zpow_neg, zpow_natCast, div_eq_mul_inv]

theorem magnitude_of_some (hn : n.exponent = none) (negative : Bool) :
    ({ n with exponent := some (negative, digits) } : Numeral).magnitude =
      if negative then n.magnitude / 10 ^ ofDigits digits
      else n.magnitude * 10 ^ ofDigits digits := by
  have hten : (10 : ℚ) ≠ 0 := OfNat.ofNat_ne_zero 10
  rw [magnitude_of_none hn, magnitude, scaled]
  cases negative with
  | true =>
    simp only [if_true, zpow_sub₀ hten, zpow_neg, zpow_natCast]
    field_simp
  | false =>
    simp only [Bool.false_eq_true, if_false, zpow_sub₀ hten, zpow_natCast]
    field_simp

/-! ### Where the exponent starts -/

theorem unsigned?_noMark {negative : Bool} (h : unsigned? negative cs = some n) :
    ∀ c ∈ cs, Decimal.isExponentMark c = false := by
  intro c hc
  unfold unsigned? at h
  split at h
  · next hdigits =>
    rcases mem_parts hc with hc | rfl
    · exact isExponentMark_of_isDigit ((isDigits_iff.1 hdigits).2 c hc)
    · rfl
  · nomatch h

theorem plain?_noMark (h : plain? cs = some n) : ∀ c ∈ cs, Decimal.isExponentMark c = false := by
  unfold plain? at h
  split at h
  · exact List.forall_mem_cons.2 ⟨rfl, unsigned?_noMark h⟩
  · exact List.forall_mem_cons.2 ⟨rfl, unsigned?_noMark h⟩
  · exact unsigned?_noMark h

theorem ofDecimalText?_of_plain? (h : plain? cs = some n) : ofDecimalText? cs = some n := by
  have hmark : ∀ c ∈ cs, (!Decimal.isExponentMark c) = true := fun c hc => by
    rw [plain?_noMark h c hc]
    rfl
  rw [ofDecimalText?, List.takeWhile_eq_self_iff.2 hmark, h, List.dropWhile_eq_nil_iff.2 hmark]
  rfl

/-- An underscore is no exponent mark, so it may be dropped before or after the text is cut. -/
theorem not_mark_of_underscore : (fun c => !(c != '_') || !Decimal.isExponentMark c) =
    fun c => !Decimal.isExponentMark c := by
  funext c
  by_cases hc : c = '_'
  · subst hc
    rfl
  · rw [bne_iff_ne.2 hc]
    rfl

theorem ofDecimalText?_of_mark {mark : Char} {exponent : List Char} {e : Bool × List Char}
    (hcs : cs.dropWhile (!Decimal.isExponentMark ·) = mark :: exponent)
    (hn : plain? (dropUnderscores (cs.takeWhile (!Decimal.isExponentMark ·))) = some n)
    (he : exponent? (dropUnderscores exponent) = some e) :
    ofDecimalText? (dropUnderscores cs) = some { n with exponent := some e } := by
  have hmark : mark ≠ '_' := by
    rintro rfl
    have hhead := List.head?_dropWhile_not (!Decimal.isExponentMark ·) cs
    rw [hcs] at hhead
    nomatch hhead
  have htake : (dropUnderscores cs).takeWhile (!Decimal.isExponentMark ·) =
      dropUnderscores (cs.takeWhile (!Decimal.isExponentMark ·)) := by
    rw [dropUnderscores, List.takeWhile_filter, not_mark_of_underscore, dropUnderscores]
  have hdrop : (dropUnderscores cs).dropWhile (!Decimal.isExponentMark ·) =
      mark :: dropUnderscores exponent := by
    rw [dropUnderscores, List.dropWhile_filter, not_mark_of_underscore, hcs]
    exact dropUnderscores_cons hmark exponent
  rw [ofDecimalText?, htake, hdrop, hn]
  simp only [he, Option.bind_eq_bind, Option.bind_some, Option.map_some]

theorem dropUnderscores_exponent (h : exponentDigits? cs = some digits) :
    dropUnderscores cs = cs := by
  unfold exponentDigits? at h
  split at h
  · next hdigits =>
    have hall := (isDigits_iff.1 hdigits).2
    unfold withoutPlus at hall
    split at hall
    · rw [dropUnderscores_cons (by decide), dropUnderscores_of_digits hall]
    · exact dropUnderscores_of_digits hall
  · nomatch h

theorem plain?_of_isDigits (h : isDigits cs) : plain? cs = some ⟨false, cs, [], none⟩ := by
  obtain ⟨-, hall⟩ := isDigits_iff.1 h
  have hpoint : ∀ c ∈ cs, (c != '.') = true := fun c hc =>
    bne_iff_ne.2 (ne_of_isDigit (hall c hc) rfl)
  have hbefore : beforePoint cs = cs := List.takeWhile_eq_self_iff.2 hpoint
  have hafter : afterPoint cs = [] := congrArg List.tail (List.dropWhile_eq_nil_iff.2 hpoint)
  have hunsigned : unsigned? false cs = some ⟨false, cs, [], none⟩ := by
    rw [unsigned?, hbefore, hafter, List.append_nil, if_pos h]
  unfold plain?
  split
  · exact absurd (hall _ List.mem_cons_self) (by decide)
  · exact absurd (hall _ List.mem_cons_self) (by decide)
  · exact hunsigned

end Numeral
end FairShare
