import FairShare.Proofs.Json.Layout

/-!
# A printed tree is read as that tree

Both printers lay out the same tokens, `tokensOf`, only with other blanks between them. From the
tokens of a tree the machine gets the tree back, whatever stack they are met on (`run_tokensOf`): the
containers around it are not touched, and a container that is being read holds what has been read of
it (`run_moreItems`, `run_moreFields`). No depth is too much for it.
-/

namespace FairShare.Json

mutual

/-- The tokens of a tree. -/
def tokensOf : Json → List Token
  | .array [] => [.openArray, .closeArray]
  | .array (j :: js) => [.openArray] ++ (tokensOf j ++ moreItems js) ++ [.closeArray]
  | .object [] => [.openObject, .closeObject]
  | .object ((k, j) :: fs) =>
    [.openObject] ++ ([.text k, .colon] ++ tokensOf j ++ moreFields fs) ++ [.closeObject]
  | .string s => [.text s]
  | j => [.scalar j]

/-- The tokens of items, each behind a comma. -/
def moreItems : List Json → List Token
  | [] => []
  | j :: js => .comma :: tokensOf j ++ moreItems js

def moreFields : List (Option String × Json) → List Token
  | [] => []
  | (k, j) :: fs => .comma :: ([.text k, .colon] ++ tokensOf j) ++ moreFields fs

end

/-! ### The machine -/

theorem Goal.run_cons {goal next : Goal} {t : Token} {ts : List Token} (h : goal.step t = some next) :
    goal.run (t :: ts) = next.run ts := by
  cases goal <;> rw [run, h] <;> rfl

/-- The first item is begun like any other value. -/
theorem run_firstItem (j : Json) (stack : List Frame) (ts : List Token) :
    (Goal.firstItem stack).run (tokensOf j ++ ts) =
      (Goal.value (.items [] :: stack)).run (tokensOf j ++ ts) := by
  cases j with
  | array items => cases items <;> rfl
  | object fields => rcases fields with _ | ⟨⟨k, j⟩, fs⟩ <;> rfl
  | _ => rfl

mutual

theorem run_tokensOf (stack : List Frame) (ts : List Token) : ∀ j : Json,
    (Goal.value stack).run (tokensOf j ++ ts) = (deliver j stack).run ts
  | .null => rfl
  | .boolean _ => rfl
  | .number _ => rfl
  | .string _ => rfl
  | .array [] => rfl
  | .array (j :: js) => by
    simp only [tokensOf, List.append_assoc, List.cons_append, List.nil_append]
    rw [Goal.run_cons rfl, run_firstItem, run_tokensOf _ _ j]
    exact run_moreItems [j] stack ts js
  | .object [] => rfl
  | .object ((k, j) :: fs) => by
    simp only [tokensOf, List.append_assoc, List.cons_append, List.nil_append]
    rw [Goal.run_cons rfl, Goal.run_cons rfl, Goal.run_cons rfl, run_tokensOf _ _ j]
    exact run_moreFields [(k, j)] stack ts fs

theorem run_moreItems (done : List Json) (stack : List Frame) (ts : List Token) :
    ∀ js : List Json, (Goal.separator (.items done :: stack)).run (moreItems js ++ .closeArray :: ts) =
      (deliver (.array (done.reverse ++ js)) stack).run ts
  | [] => by
    rw [moreItems, List.nil_append, Goal.run_cons rfl, List.append_nil]
  | j :: js => by
    have hmore := run_moreItems (j :: done) stack ts js
    rw [List.reverse_cons, List.append_assoc, List.singleton_append] at hmore
    simp only [moreItems, List.append_assoc, List.cons_append]
    rw [Goal.run_cons rfl, run_tokensOf _ _ j, deliver, hmore]

theorem run_moreFields (done : List (Option String × Json)) (stack : List Frame) (ts : List Token) :
    ∀ fs : List (Option String × Json),
      (Goal.separator (.fields done :: stack)).run (moreFields fs ++ .closeObject :: ts) =
        (deliver (.object (done.reverse ++ fs)) stack).run ts
  | [] => by
    rw [moreFields, List.nil_append, Goal.run_cons rfl, List.append_nil]
  | (k, j) :: fs => by
    have hmore := run_moreFields ((k, j) :: done) stack ts fs
    rw [List.reverse_cons, List.append_assoc, List.singleton_append] at hmore
    simp only [moreFields, List.append_assoc, List.cons_append, List.nil_append]
    rw [Goal.run_cons rfl, Goal.run_cons rfl, Goal.run_cons rfl, run_tokensOf _ _ j, deliver, hmore]

end

theorem ofChars?_of_lays {cs : List Char} {j : Json} (h : Lays cs (tokensOf j)) :
    ofChars? cs = some j := by
  have hrun := run_tokensOf [] [] j
  rw [List.append_nil] at hrun
  rw [ofChars?, tokens_of_lays h]
  exact hrun

/-! ### The printers -/

/-- A text that lays out tokens in front of anything by which it is ended. -/
def Spells (cs : List Char) (ts : List Token) : Prop :=
  ∀ cs' ts', Ends cs' → Lays cs' ts' → Lays (cs ++ cs') (ts ++ ts')

theorem Lays.blanks {gap cs : List Char} {ts : List Token} (hgap : ∀ c ∈ gap, isBlank c)
    (h : Lays cs ts) : Lays (gap ++ cs) ts := by
  induction gap with
  | nil => exact h
  | cons c gap ih =>
    obtain ⟨hc, hgap⟩ := List.forall_mem_cons.1 hgap
    exact .blank hc (ih hgap)

theorem ends_mark {c : Char} {t : Token} (hc : mark? c = some t) (cs : List Char) :
    Ends (c :: cs) := ends_cons (by rw [isBare_iff, hc]; simp) cs

theorem ends_blank {c : Char} (hc : isBlank c) (cs : List Char) : Ends (c :: cs) :=
  ends_cons (fun h => (isBare_iff.1 h).1 hc) cs

namespace Spells
variable {cs gap : List Char} {ts : List Token}

theorem lays (h : Spells cs ts) : Lays cs ts := by
  have hnil := h [] [] (fun _ hc => by cases hc) .nil
  rwa [List.append_nil, List.append_nil] at hnil

theorem text (s : Option String) : Spells (stringChars s) [.text s] := fun _ _ _ hl => .text s hl

theorem bare {c : Char} {w : List Char} {t : Token} (hw : (c :: w).all isBare)
    (ht : bareToken? (c :: w) = some t) : Spells (c :: w) [t] :=
  fun _ _ hends hl => .bare (List.all_eq_true.1 hw) ht hends hl

theorem null : Spells ['n', 'u', 'l', 'l'] [.scalar .null] := bare rfl rfl

theorem boolean (b : Bool) : Spells (scalarChars (.boolean b)) [.scalar (.boolean b)] := by
  cases b with
  | true => exact bare (c := 't') (w := ['r', 'u', 'e']) rfl rfl
  | false => exact bare (c := 'f') (w := ['a', 'l', 's', 'e']) rfl rfl

theorem marks {o c : Char} {opening closing : Token} (ho : mark? o = some opening)
    (hc : mark? c = some closing) : Spells [o, c] [opening, closing] :=
  fun _ _ _ hl => .mark ho (.mark hc hl)

theorem blanks (hgap : ∀ c ∈ gap, isBlank c) (h : Spells cs ts) : Spells (gap ++ cs) ts :=
  fun cs' ts' hends hl => by
    rw [List.append_assoc]
    exact (h cs' ts' hends hl).blanks hgap

theorem entry (k : Option String) (hgap : ∀ c ∈ gap, isBlank c) (h : Spells cs ts) :
    Spells (stringChars k ++ ':' :: gap ++ cs) ([.text k, .colon] ++ ts) :=
  fun cs' ts' hends hl => by
    simp only [List.append_assoc, List.cons_append, List.nil_append]
    exact .text k (.mark rfl ((h cs' ts' hends hl).blanks hgap))

section
variable {α : Type} {f : α → List Char} {g : α → List Token} {x : α} {xs : List α}

theorem more (h : ∀ y ∈ xs, Spells (f y) (g y)) (hends : Ends cs) (hl : Lays cs ts) :
    Ends (xs.flatMap (fun y => ',' :: f y) ++ cs) ∧
      Lays (xs.flatMap (fun y => ',' :: f y) ++ cs) (xs.flatMap (fun y => .comma :: g y) ++ ts) := by
  induction xs with
  | nil => exact ⟨hends, hl⟩
  | cons x xs ih =>
    obtain ⟨hx, hxs⟩ := List.forall_mem_cons.1 h
    obtain ⟨hends', hl'⟩ := ih hxs
    simp only [List.flatMap_cons, List.append_assoc, List.cons_append]
    exact ⟨ends_mark rfl _, .mark rfl (hx _ _ hends' hl')⟩

/-- Things with commas between them, and marks around them. -/
theorem enclose {o c : Char} {opening closing : Token} (ho : mark? o = some opening)
    (hc : mark? c = some closing) (hgap : ∀ b ∈ gap, isBlank b)
    (h : ∀ y ∈ x :: xs, Spells (f y) (g y)) :
    Spells ([o] ++ (f x ++ xs.flatMap fun y => ',' :: f y) ++ gap ++ [c])
      ([opening] ++ (g x ++ xs.flatMap fun y => .comma :: g y) ++ [closing]) := by
  intro cs' ts' _ hl
  obtain ⟨hx, hxs⟩ := List.forall_mem_cons.1 h
  have hclose : Ends (gap ++ c :: cs') := by
    cases gap with
    | nil => exact ends_mark hc _
    | cons b gap => exact ends_blank (hgap b (List.mem_cons_self ..)) _
  obtain ⟨hends, hl'⟩ := more hxs hclose ((Lays.mark hc hl).blanks hgap)
  simp only [List.append_assoc, List.cons_append, List.nil_append]
  exact .mark ho (hx _ _ hends hl')

end
end Spells

/-- A number that is one token and stands for itself. -/
structure LegibleNumber (n : Numeral) : Prop where
  bare : ∀ c ∈ n.chars, isBare c
  read : Numeral.ofChars? n.chars = some n

/-- A tree whose numbers can be read. -/
inductive Legible : Json → Prop
  | null : Legible .null
  | boolean (b : Bool) : Legible (.boolean b)
  | number {n : Numeral} : LegibleNumber n → Legible (.number n)
  | string (s : Option String) : Legible (.string s)
  | array {items : List Json} : (∀ j ∈ items, Legible j) → Legible (.array items)
  | object {fields : List (Option String × Json)} :
      (∀ f ∈ fields, Legible f.2) → Legible (.object fields)

theorem LegibleNumber.spells {n : Numeral} (h : LegibleNumber n) :
    Spells n.chars [.scalar (.number n)] := by
  have hword : ∀ word, Numeral.ofChars? word = none → n.chars ≠ word := fun word hnone heq => by
    have hread := h.read
    rw [heq, hnone] at hread
    cases hread
  have ht : bareToken? n.chars = some (.scalar (.number n)) := by
    rw [bareToken?, if_neg (hword _ (by decide)), if_neg (hword _ (by decide)),
      if_neg (hword _ (by decide)), h.read, Option.map_some]
  cases hchars : n.chars with
  | nil => exact absurd hchars (hword [] rfl)
  | cons c word => exact .bare (hchars ▸ List.all_eq_true.2 h.bare) (hchars ▸ ht)

theorem moreItems_eq (js : List Json) : moreItems js = js.flatMap fun j => .comma :: tokensOf j := by
  induction js with
  | nil => rfl
  | cons j js ih => rw [moreItems, ih, List.flatMap_cons]

theorem moreFields_eq (fs : List (Option String × Json)) :
    moreFields fs = fs.flatMap fun f => .comma :: ([.text f.1, .colon] ++ tokensOf f.2) := by
  induction fs with
  | nil => rfl
  | cons f fs ih => rw [moreFields, ih, List.flatMap_cons]

/-- A comma is written before everything but the first. -/
theorem separated {α : Type} {write : List α → List Char} {f : α → List Char}
    (hone : ∀ x, write [x] = f x)
    (hmore : ∀ x y xs, write (x :: y :: xs) = f x ++ [','] ++ write (y :: xs))
    (x : α) (xs : List α) : write (x :: xs) = f x ++ xs.flatMap fun y => ',' :: f y := by
  induction xs generalizing x with
  | nil => rw [hone, List.flatMap_nil, List.append_nil]
  | cons y xs ih =>
    rw [hmore, ih, List.flatMap_cons, List.append_assoc]
    rfl

theorem compactItems_cons (j : Json) (js : List Json) :
    compactItems (j :: js) = compactChars j ++ js.flatMap fun j => ',' :: compactChars j :=
  separated (fun _ => rfl) (fun _ _ _ => rfl) j js

theorem compactFields_cons (f : Option String × Json) (fs : List (Option String × Json)) :
    compactFields (f :: fs) = stringChars f.1 ++ [':'] ++ compactChars f.2 ++
      fs.flatMap fun f => ',' :: (stringChars f.1 ++ [':'] ++ compactChars f.2) :=
  separated (fun _ => rfl) (fun _ _ _ => rfl) f fs

theorem prettyItems_cons (depth : Nat) (j : Json) (js : List Json) :
    prettyItems depth (j :: js) = newLine depth ++ prettyChars depth j ++
      js.flatMap fun j => ',' :: (newLine depth ++ prettyChars depth j) :=
  separated (fun _ => rfl) (fun _ _ _ => rfl) j js

theorem prettyFields_cons (depth : Nat) (f : Option String × Json)
    (fs : List (Option String × Json)) :
    prettyFields depth (f :: fs) =
      newLine depth ++ (stringChars f.1 ++ [':', ' '] ++ prettyChars depth f.2) ++ fs.flatMap fun f =>
        ',' :: (newLine depth ++ (stringChars f.1 ++ [':', ' '] ++ prettyChars depth f.2)) :=
  separated (f := fun f => newLine depth ++ (stringChars f.1 ++ [':', ' '] ++ prettyChars depth f.2))
    (fun f => by simp [prettyFields]) (fun f f' fs => by simp [prettyFields]) f fs

theorem spells_compact {j : Json} (h : j.Legible) : Spells (compactChars j) (tokensOf j) := by
  induction h with
  | null => exact .null
  | boolean b => exact .boolean b
  | number hn => exact hn.spells
  | string s => exact .text s
  | @array items _ ih =>
    cases items with
    | nil => exact .marks rfl rfl
    | cons j js =>
      rw [compactChars, compactItems_cons, tokensOf, moreItems_eq, ← List.append_nil (['['] ++ _)]
      exact .enclose rfl rfl (by simp) ih
  | @object fields _ ih =>
    cases fields with
    | nil => exact .marks rfl rfl
    | cons f fs =>
      rw [compactChars, compactFields_cons, tokensOf, moreFields_eq,
        ← List.append_nil (['\x7b'] ++ _)]
      exact .enclose rfl rfl (by simp) fun e he => (ih e he).entry e.1 (by simp)

theorem isBlank_of_mem_newLine {depth : Nat} : ∀ c ∈ newLine depth, isBlank c := by
  intro c hc
  rcases List.mem_cons.1 hc with rfl | hc
  · rfl
  · rw [List.eq_of_mem_replicate hc]
    rfl

theorem spells_pretty {j : Json} (h : j.Legible) (depth : Nat) :
    Spells (prettyChars depth j) (tokensOf j) := by
  induction h generalizing depth with
  | null => exact .null
  | boolean b => exact .boolean b
  | number hn => exact hn.spells
  | string s => exact .text s
  | @array items _ ih =>
    cases items with
    | nil => exact .marks rfl rfl
    | cons j js =>
      rw [prettyChars, prettyItems_cons, tokensOf, moreItems_eq]
      · exact .enclose rfl rfl isBlank_of_mem_newLine fun j hj =>
          (ih j hj (depth + 1)).blanks isBlank_of_mem_newLine
      · exact fun h => nomatch h
  | @object fields _ ih =>
    cases fields with
    | nil => exact .marks rfl rfl
    | cons f fs =>
      rw [prettyChars, prettyFields_cons, tokensOf, moreFields_eq]
      · have hspace : ∀ c ∈ [' '], isBlank c := List.forall_mem_singleton.2 rfl
        exact .enclose rfl rfl isBlank_of_mem_newLine fun e he =>
          ((ih e he (depth + 1)).entry e.1 hspace).blanks isBlank_of_mem_newLine
      · exact fun h => nomatch h

theorem ofText?_compact {j : Json} (h : j.Legible) : ofText? j.compact = some j := by
  rw [ofText?, compact, String.toList_ofList]
  exact ofChars?_of_lays (spells_compact h).lays

theorem ofText?_pretty {j : Json} (h : j.Legible) : ofText? j.pretty = some j := by
  rw [ofText?, pretty, String.toList_ofList]
  exact ofChars?_of_lays (spells_pretty h 0).lays

end FairShare.Json
