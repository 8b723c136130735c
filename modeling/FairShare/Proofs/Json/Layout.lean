import FairShare.Json.Printer
import FairShare.Json.Reader
import FairShare.Proofs.Json.Text

/-!
# Layouts of tokens

`Lays` says which texts lay out which tokens: blanks may stand between them, strings are escaped, and
what follows a word or a number has to end it. It does not say how much of a text is a token, which is
what `tokens` has to find out; from a text that lays out tokens it gets these (`tokens_of_lays`).
-/

namespace FairShare.Json

/-- Whether a bare token goes on with this character. -/
def isBare (c : Char) : Bool := !isBlank c && c != '"' && (mark? c).isNone

/-- A bare token is over before this text. -/
def Ends (cs : List Char) : Prop := ∀ c ∈ cs.head?, ¬ isBare c

inductive Lays : List Char → List Token → Prop
  | nil : Lays [] []
  | blank {c : Char} {cs : List Char} {ts : List Token} (hc : isBlank c) :
      Lays cs ts → Lays (c :: cs) ts
  | mark {c : Char} {cs : List Char} {t : Token} {ts : List Token} (hc : mark? c = some t) :
      Lays cs ts → Lays (c :: cs) (t :: ts)
  | text (s : Option String) {cs : List Char} {ts : List Token} :
      Lays cs ts → Lays (stringChars s ++ cs) (.text s :: ts)
  | bare {c : Char} {word cs : List Char} {t : Token} {ts : List Token}
      (hword : ∀ a ∈ c :: word, isBare a) (ht : bareToken? (c :: word) = some t) (hcs : Ends cs) :
      Lays cs ts → Lays (c :: word ++ cs) (t :: ts)

/-! ### Marks and bare tokens -/

theorem ends_cons {c : Char} (hc : ¬ isBare c) (cs : List Char) : Ends (c :: cs) := by
  rintro _ ⟨⟩
  exact hc

theorem isBare_iff {c : Char} : isBare c ↔ ¬ isBlank c ∧ c ≠ '"' ∧ mark? c = none := by
  simp [isBare, and_assoc]

theorem not_blank_of_mark {c : Char} {t : Token} (hc : mark? c = some t) :
    ¬ isBlank c ∧ c ≠ '"' := by
  have hmarks : ∀ m ∈ ['[', ']', '\x7b', '\x7d', ',', ':'], ¬ isBlank m ∧ m ≠ '"' := by
    simp [isBlank]
  refine hmarks c (Decidable.byContradiction fun hnot => ?_)
  simp only [List.mem_cons, List.not_mem_nil, or_false, not_or] at hnot
  simp [mark?, hnot] at hc

theorem tokens_mark {c : Char} {t : Token} (hc : mark? c = some t) (cs : List Char) :
    tokens .between (c :: cs) = (t :: ·) <$> tokens .between cs := by
  obtain ⟨hblank, hquote⟩ := not_blank_of_mark hc
  rw [tokens, if_neg hblank, if_neg hquote, hc]

theorem tokens_bare {word : List Char} (hword : ∀ c ∈ word, isBare c) (seen cs : List Char) :
    tokens (.bare seen) (word ++ cs) = tokens (.bare (word.reverse ++ seen)) cs := by
  induction word generalizing seen with
  | nil => rfl
  | cons c word ih =>
    obtain ⟨hc, hword⟩ := List.forall_mem_cons.1 hword
    obtain ⟨hblank, hquote, hmark⟩ := isBare_iff.1 hc
    rw [List.cons_append, tokens, if_neg hblank, if_neg hquote, hmark, List.reverse_cons,
      List.append_assoc]
    exact ih hword (c :: seen)

/-- Where a bare token ends, the rest is read as if it was not there. -/
theorem tokens_ends {seen cs : List Char} {t : Token} (ht : bareToken? seen.reverse = some t)
    (hcs : Ends cs) : tokens (.bare seen) cs = (t :: ·) <$> tokens .between cs := by
  cases cs with
  | nil => simp only [tokens, ht]; rfl
  | cons c cs =>
    rw [tokens, tokens, ht]
    by_cases hblank : isBlank c
    · rw [if_pos hblank, if_pos hblank]
      rfl
    by_cases hquote : c = '"'
    · rw [if_neg hblank, if_neg hblank, if_pos hquote, if_pos hquote]
      rfl
    cases hmark : mark? c with
    | none => exact absurd (isBare_iff.2 ⟨hblank, hquote, hmark⟩) (hcs c rfl)
    | some m =>
      rw [if_neg hblank, if_neg hblank, if_neg hquote, if_neg hquote, Functor.map_map]
      rfl

/-! ### Strings -/

theorem tokens_quoted {c : Char} (hquote : c ≠ '"') (hslash : c ≠ '\\') (hlow : 32 ≤ c.toNat)
    (seen cs : List Char) : tokens (.quoted seen) (c :: cs) = tokens (.quoted (c :: seen)) cs := by
  rw [tokens, if_neg hquote, if_neg hslash, if_neg (Nat.not_lt.2 hlow)]

theorem tokens_escaped (c : Char) (seen cs : List Char) :
    tokens (.quoted seen) ('\\' :: c :: cs) = tokens (.quoted (c :: '\\' :: seen)) cs := rfl

theorem hexDigit_plain : ∀ n < 16, hexDigit n ≠ '"' ∧ hexDigit n ≠ '\\' ∧ 32 ≤ (hexDigit n).toNat := by
  decide

theorem tokens_escapeChar (c : Char) (seen cs : List Char) :
    tokens (.quoted seen) (escapeChar c ++ cs) =
      tokens (.quoted ((escapeChar c).reverse ++ seen)) cs := by
  rcases escapeChar_cases c with ⟨e, -, -, h⟩ | ⟨hlow, h⟩ | ⟨hquote, hslash, hlow, h⟩
  · rw [h]
    exact tokens_escaped e seen cs
  · obtain ⟨hq, hs, hl⟩ := hexDigit_plain (c.toNat / 16) (by omega)
    obtain ⟨hq', hs', hl'⟩ := hexDigit_plain (c.toNat % 16) (by omega)
    have hzero : ∀ seen cs, tokens (.quoted seen) ('0' :: cs) = tokens (.quoted ('0' :: seen)) cs :=
      tokens_quoted (by decide) (by decide) (by decide)
    rw [h]
    simp only [List.cons_append, List.nil_append]
    rw [tokens_escaped, hzero, hzero, tokens_quoted hq hs hl, tokens_quoted hq' hs' hl']
    rfl
  · rw [h]
    exact tokens_quoted hquote hslash hlow seen cs

theorem tokens_escape (s seen cs : List Char) :
    tokens (.quoted seen) (escape s ++ cs) = tokens (.quoted ((escape s).reverse ++ seen)) cs := by
  induction s generalizing seen with
  | nil => rfl
  | cons c s ih =>
    rw [escape, List.flatMap_cons, List.append_assoc, tokens_escapeChar]
    rw [List.reverse_append, List.append_assoc]
    exact ih _

theorem quotedToken?_escape (s : String) :
    quotedToken? (escape s.toList) = some (.text (some s)) := by
  rw [quotedToken?, units_escape, Option.map_some, join_toNat, Option.map_some, String.ofList_toList]

theorem tokens_stringChars (s : Option String) (cs : List Char) :
    tokens .between (stringChars s ++ cs) = (.text s :: ·) <$> tokens .between cs := by
  cases s with
  | none => rfl
  | some s =>
    have hopen : ∀ cs, tokens .between ('"' :: cs) = tokens (.quoted []) cs := fun _ => rfl
    rw [stringChars, List.append_assoc, List.append_assoc, List.singleton_append, hopen, tokens_escape,
      List.append_nil, List.singleton_append, tokens, if_pos rfl, List.reverse_reverse,
      quotedToken?_escape]
    rfl

/-- The tokens of a text are those that it lays out. -/
theorem tokens_of_lays {cs : List Char} {ts : List Token} (h : Lays cs ts) :
    tokens .between cs = some ts := by
  induction h with
  | nil => rfl
  | blank hc _ ih => rw [tokens, if_pos hc, ih]
  | mark hc _ ih => rw [tokens_mark hc, ih]; rfl
  | text s _ ih => rw [tokens_stringChars, ih]; rfl
  | @bare c word cs t ts hword ht hcs _ ih =>
    obtain ⟨hc, hrest⟩ := List.forall_mem_cons.1 hword
    obtain ⟨hblank, hquote, hmark⟩ := isBare_iff.1 hc
    have ht' : bareToken? (word.reverse ++ [c]).reverse = some t := by
      rwa [List.reverse_append, List.reverse_reverse]
    rw [List.cons_append, tokens, if_neg hblank, if_neg hquote, hmark]
    show tokens (.bare [c]) (word ++ cs) = _
    rw [tokens_bare hrest, tokens_ends ht' hcs, ih]
    rfl

end FairShare.Json
