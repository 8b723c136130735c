import FairShare.Json.Reader
import FairShare.Proofs.Decimal.Spelling

/-!
# Numbers in a text

A number that is read from a text stands there as a literal, so its parts are digits (`Numeral.Legal`).
A text that is a number as a whole is a single token: once the machine has a container open, what it
completes is a container (`Goal.Inside`).
-/

namespace FairShare

open Text

namespace Numeral
variable {cs rest digits : List Char} {n : Numeral}

theorem isDigits_of_readExponent? {e : Option (Bool × List Char)}
    (h : Numeral.readExponent? cs = some e) : ∀ x ∈ e, isDigits x.2 := by
  unfold Numeral.readExponent? at h
  split at h
  · cases h
    exact fun x hx => nomatch hx
  · split at h
    · obtain ⟨hdigits, h⟩ := Option.ite_none_right_eq_some.1 h
      cases h
      intro x hx
      cases hx
      exact hdigits
    · nomatch h

theorem isDigit_of_readFraction? (h : Numeral.readFraction? cs = some (digits, rest)) :
    ∀ c ∈ digits, c.isDigit := by
  unfold Numeral.readFraction? at h
  split at h
  · obtain ⟨-, h⟩ := Option.ite_none_left_eq_some.1 h
    cases h
    exact fun c hc => List.mem_takeWhile_imp hc
  · cases h
    exact List.forall_mem_nil _

theorem isDigits_of_isWholePart (h : isWholePart cs) : isDigits cs := by
  unfold isWholePart at h
  split at h
  · nomatch h
  · rfl
  · exact (Bool.and_eq_true_iff.1 h).2

theorem legal_of_ofChars? (h : Numeral.ofChars? cs = some n) : n.Legal := by
  unfold Numeral.ofChars? at h
  simp only at h
  obtain ⟨hwhole, h⟩ := Option.ite_none_right_eq_some.1 h
  obtain ⟨⟨fraction, rest⟩, hfraction, h⟩ := Option.bind_eq_some_iff.1 h
  obtain ⟨exponent, hexponent, h⟩ := Option.bind_eq_some_iff.1 h
  cases h
  exact ⟨isDigits_of_isWholePart hwhole, isDigit_of_readFraction? hfraction,
    isDigits_of_readExponent? hexponent⟩

end Numeral

namespace Json

/-- A scalar token is a word or a number. -/
def Token.Bare (t : Token) : Prop := ∀ j, t = .scalar j → ∃ word, bareToken? word = some t

theorem bare_of_mark? {c : Char} {t : Token} (h : mark? c = some t) : t.Bare := by
  rintro j rfl
  unfold mark? at h
  repeat (split at h; · nomatch h)
  nomatch h

theorem bare_of_quotedToken? {body : List Char} {t : Token} (h : quotedToken? body = some t) :
    t.Bare := by
  rintro j rfl
  obtain ⟨us, -, h⟩ := Option.map_eq_some_iff.1 h
  nomatch h

theorem bare_of_bareToken? {word : List Char} {t : Token} (h : bareToken? word = some t) : t.Bare :=
  fun _ _ => ⟨word, h⟩

theorem bare_cons {t : Token} {ts : List Token} {rest : Option (List Token)} (ht : t.Bare)
    (h : (t :: ·) <$> rest = some ts) (hrest : ∀ us, rest = some us → ∀ u ∈ us, u.Bare) :
    ∀ u ∈ ts, u.Bare := by
  obtain ⟨us, hus, rfl⟩ := Option.map_eq_some_iff.1 h
  exact List.forall_mem_cons.2 ⟨ht, hrest us hus⟩

theorem bare_of_tokens {scan : Scan} {cs : List Char} {ts : List Token}
    (h : tokens scan cs = some ts) : ∀ t ∈ ts, t.Bare := by
  fun_induction tokens scan cs generalizing ts with
  | case1 =>
    cases h
    exact List.forall_mem_nil _
  | case2 seen =>
    obtain ⟨t, ht, h⟩ := Option.bind_eq_some_iff.1 h
    cases h
    exact List.forall_mem_singleton.2 (bare_of_bareToken? ht)
  | case3 | case4 | case15 => cases h
  | case5 _ _ _ ih => exact ih h
  | case6 _ _ ih => exact ih h
  | case7 c cs _ _ m hm ih => exact bare_cons (bare_of_mark? hm) h fun _ => ih
  | case8 _ _ _ _ _ ih => exact ih h
  | case9 _ _ _ _ ih =>
    obtain ⟨t, ht, h⟩ := Option.bind_eq_some_iff.1 h
    exact bare_cons (bare_of_bareToken? ht) h fun _ => ih
  | case10 _ _ _ ih =>
    obtain ⟨t, ht, h⟩ := Option.bind_eq_some_iff.1 h
    exact bare_cons (bare_of_bareToken? ht) h fun _ => ih
  | case11 _ _ _ _ _ m hm ih =>
    obtain ⟨t, ht, h⟩ := Option.bind_eq_some_iff.1 h
    obtain ⟨us, hus, rfl⟩ := Option.map_eq_some_iff.1 h
    exact List.forall_mem_cons.2 ⟨bare_of_bareToken? ht,
      List.forall_mem_cons.2 ⟨bare_of_mark? hm, ih hus⟩⟩
  | case12 _ _ _ _ _ _ ih => exact ih h
  | case13 _ _ ih =>
    obtain ⟨t, ht, h⟩ := Option.bind_eq_some_iff.1 h
    exact bare_cons (bare_of_quotedToken? ht) h fun _ => ih
  | case14 _ _ _ ih => exact ih h
  | case16 _ _ _ _ _ _ ih => exact ih h
  | case17 _ _ _ ih => exact ih h

/-! ### A number as a whole text -/

/-- A container is open, or is what has been completed. -/
inductive Goal.Inside : Goal → Prop
  | value (f : Frame) (stack : List Frame) : Inside (.value (f :: stack))
  | firstItem (stack : List Frame) : Inside (.firstItem stack)
  | firstKey (stack : List Frame) : Inside (.firstKey stack)
  | key (done : List (Option String × Json)) (stack : List Frame) : Inside (.key done stack)
  | colon (f : Frame) (stack : List Frame) : Inside (.colon (f :: stack))
  | separator (stack : List Frame) : Inside (.separator stack)
  | array (js : List Json) : Inside (.complete (.array js))
  | object (entries : List (Option String × Json)) : Inside (.complete (.object entries))

namespace Goal.Inside

theorem deliver_open (v : Json) (f : Frame) (stack : List Frame) :
    (deliver v (f :: stack)).Inside := by
  cases f <;> exact .separator _

theorem deliver_array (js : List Json) (stack : List Frame) :
    (deliver (.array js) stack).Inside := by
  cases stack with
  | nil => exact .array js
  | cons f stack => exact deliver_open _ f stack

theorem deliver_object (entries : List (Option String × Json)) (stack : List Frame) :
    (deliver (.object entries) stack).Inside := by
  cases stack with
  | nil => exact .object entries
  | cons f stack => exact deliver_open _ f stack

theorem beginValue {t : Token} {f : Frame} {stack : List Frame} {goal : Goal}
    (h : Json.beginValue (f :: stack) t = some goal) : goal.Inside := by
  unfold Json.beginValue at h
  split at h
  · cases h; exact deliver_open _ f stack
  · cases h; exact deliver_open _ f stack
  · cases h; exact .firstItem _
  · cases h; exact .firstKey _
  · nomatch h

theorem step {goal next : Goal} {t : Token} (hg : goal.Inside) (h : goal.step t = some next) :
    next.Inside := by
  unfold Goal.step at h
  split at h
  · cases hg
    exact beginValue h
  · cases h; exact deliver_array _ _
  · exact beginValue h
  · cases h; exact deliver_object _ _
  · cases h; exact .colon _ _
  · cases h; exact .colon _ _
  · cases hg
    cases h
    exact .value _ _
  · cases h; exact .value _ _
  · cases h; exact deliver_array _ _
  · cases h; exact .key _ _
  · cases h; exact deliver_object _ _
  · nomatch h

/-- What is completed from there is no number. -/
theorem run {goal : Goal} {ts : List Token} {n : Numeral} (hg : goal.Inside) :
    goal.run ts ≠ some (.number n) := by
  induction ts generalizing goal with
  | nil =>
    cases hg <;> nofun
  | cons t ts ih =>
    intro h
    rw [Goal.run] at h
    · obtain ⟨next, hnext, h⟩ := Option.bind_eq_some_iff.1 h
      exact ih (hg.step hnext) h

end Goal.Inside

theorem run_complete {v : Json} {ts : List Token} {j : Json}
    (h : (Goal.complete v).run ts = some j) : ts = [] ∧ v = j := by
  cases ts with
  | nil => exact ⟨rfl, Option.some.inj h⟩
  | cons t ts => nomatch h

theorem run_number {ts : List Token} {n : Numeral}
    (h : (Goal.value []).run ts = some (.number n)) : ts = [.scalar (.number n)] := by
  cases ts with
  | nil => nomatch h
  | cons t ts =>
    rw [Goal.run] at h
    · obtain ⟨next, hnext, h⟩ := Option.bind_eq_some_iff.1 h
      cases t with
      | text s =>
        cases hnext
        nomatch (run_complete h).2
      | scalar v =>
        cases hnext
        obtain ⟨rfl, rfl⟩ := run_complete h
        rfl
      | openArray =>
        cases hnext
        exact absurd h (Goal.Inside.firstItem []).run
      | openObject =>
        cases hnext
        exact absurd h (Goal.Inside.firstKey []).run
      | _ => nomatch hnext

/-- A text that is a number is a literal. -/
theorem exists_literal {s : String} {n : Numeral} (h : ofText? s = some (.number n)) :
    ∃ word, Numeral.ofChars? word = some n := by
  obtain ⟨ts, hts, h⟩ := Option.bind_eq_some_iff.1 h
  rw [run_number h] at hts
  obtain ⟨word, hword⟩ := bare_of_tokens hts _ (List.mem_singleton_self _) _ rfl
  refine ⟨word, ?_⟩
  unfold bareToken? at hword
  split at hword
  · nomatch hword
  split at hword
  · nomatch hword
  split at hword
  · nomatch hword
  obtain ⟨m, hm, heq⟩ := Option.map_eq_some_iff.1 hword
  cases heq
  exact hm

theorem legal_of_ofText? {s : String} {n : Numeral} (h : ofText? s = some (.number n)) :
    n.Legal := by
  obtain ⟨word, hword⟩ := exists_literal h
  exact Numeral.legal_of_ofChars? hword

end Json
end FairShare
