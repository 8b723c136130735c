import FairShare.Json.Text

/-!
# String contents are read as they are written

A character is written in one of three ways: as itself, with a short escape, or by the number of its
unit (`escapeChar_cases`). Each names the one unit that the character has, so the units of a written
text are those of its characters (`units_escape`). No surrogate is among them, and each makes its
character again (`join_toNat`).
-/

namespace FairShare.Json

theorem escapeChar_cases (c : Char) :
    (∃ e, e ≠ 'u' ∧ shortEscape? e = some c.toNat ∧ escapeChar c = ['\\', e]) ∨
    (c.toNat < 32 ∧ escapeChar c =
      ['\\', 'u', '0', '0', hexDigit (c.toNat / 16), hexDigit (c.toNat % 16)]) ∨
    (c ≠ '"' ∧ c ≠ '\\' ∧ 32 ≤ c.toNat ∧ escapeChar c = [c]) := by
  by_cases hshort : c ∈ ['"', '\\', '\x08', '\x0c', '\n', '\r', '\t']
  · refine .inl ?_
    simp only [List.mem_cons, List.not_mem_nil, or_false] at hshort
    rcases hshort with rfl | rfl | rfl | rfl | rfl | rfl | rfl <;>
      exact ⟨_, by decide, rfl, rfl⟩
  · simp only [List.mem_cons, List.not_mem_nil, or_false, not_or] at hshort
    refine .inr ?_
    by_cases hlow : c.toNat < 32
    · exact .inl ⟨hlow, by simp [escapeChar, hshort, hlow]⟩
    · exact .inr ⟨hshort.1, hshort.2.1, Nat.le_of_not_lt hlow, by simp [escapeChar, hshort, hlow]⟩

theorem hexValue?_hexDigit : ∀ n < 16, hexValue? (hexDigit n) = some n := by decide

theorem hex4?_of_lt {n : Nat} (h : n < 32) :
    hex4? '0' '0' (hexDigit (n / 16)) (hexDigit (n % 16)) = some n := by
  have hzero : hexValue? '0' = some 0 := by decide
  have hvalue : ((0 * 16 + 0) * 16 + n / 16) * 16 + n % 16 = n := by omega
  rw [hex4?, hzero, hexValue?_hexDigit _ (by omega), hexValue?_hexDigit _ (by omega)]
  exact congrArg some hvalue

theorem bind_cons_units (unit : Nat) (rest : List Char) :
    ((units rest).bind fun others => some (unit :: others)) = (unit :: ·) <$> units rest := by
  cases units rest <;> rfl

theorem units_escapeChar (c : Char) (rest : List Char) :
    units (escapeChar c ++ rest) = (c.toNat :: ·) <$> units rest := by
  rw [← bind_cons_units]
  rcases escapeChar_cases c with ⟨e, hu, he, h⟩ | ⟨hlow, h⟩ | ⟨-, hc, -, h⟩
  · rw [h, List.cons_append, List.cons_append, List.nil_append, units, he]
    · rfl
    · intro _ _ _ _ _ hcons
      exact absurd hcons hu
  · rw [h]
    simp only [List.cons_append, List.nil_append]
    rw [units, hex4?_of_lt hlow]
    rfl
  · rw [h, List.singleton_append, units, if_neg hc]
    · rfl
    · intro _ _ _ _ _ hcons
      exact absurd hcons hc
    · intro _ _ hcons
      exact absurd hcons hc

theorem units_escape (cs : List Char) : units (escape cs) = some (cs.map Char.toNat) := by
  induction cs with
  | nil => rfl
  | cons c cs ih =>
    rw [escape, List.flatMap_cons, units_escapeChar]
    exact congrArg _ ih

theorem not_surrogate_toNat (c : Char) : (isLeading c.toNat || isTrailing c.toNat) = false := by
  have hvalid : c.toNat < 0xD800 ∨ 0xDFFF < c.toNat ∧ c.toNat < 0x110000 := c.valid
  simp only [isLeading, isTrailing, Bool.or_eq_false_iff, Bool.and_eq_false_iff,
    decide_eq_false_iff_not]
  omega

theorem join_toNat (cs : List Char) : join (cs.map Char.toNat) = some cs := by
  induction cs with
  | nil => rfl
  | cons c cs ih =>
    have hc := not_surrogate_toNat c
    cases cs with
    | nil => rw [List.map_cons, List.map_nil, join, hc, if_neg Bool.false_ne_true, Char.ofNat_toNat]
    | cons c' cs =>
      have hleading : isLeading c.toNat = false := (Bool.or_eq_false_iff.1 hc).1
      rw [List.map_cons] at ih
      rw [List.map_cons, List.map_cons, join, hc, hleading, Bool.false_and, if_neg Bool.false_ne_true,
        if_neg Bool.false_ne_true, ih, Char.ofNat_toNat]
      rfl

end FairShare.Json
