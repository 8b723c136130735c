import FairShare.Json.Decode
import Mathlib.Data.List.Forall2

/-!
# Forms

A form says which trees spell which things, and how many levels they take. Unlike a decoder it has no
order in which parts are looked at, and it tells no faults apart. Items are spelled one by one, a pair
by an array of two, and a record of two fields by an array of them or by an object in which no field
is given twice; a field that is missing is its fallback, if it has one. What stands under other keys
does not matter, but every key has to have content.

`Decoder.Accepts` says that a decoder reads, on the text route, exactly what a form spells. It is
proved once for each combinator.
-/

namespace FairShare.Json

/-- Which trees spell which things where so many levels may be entered. -/
abbrev Form (α : Type) := Nat → Json → α → Prop

namespace Form
variable {α β γ : Type}

inductive string : Form String
  | intro {depth : Nat} (s : String) : string depth (ofString s) s

inductive list (item : Form α) : Form (List α)
  | nil {depth : Nat} : list item (depth + 1) (.array []) []
  | cons {depth : Nat} {j : Json} {js : List Json} {a : α} {as : List α} :
      item depth j a → list item (depth + 1) (.array js) as →
      list item (depth + 1) (.array (j :: js)) (a :: as)

inductive pair (item : Form α) : Form (α × α)
  | intro {depth : Nat} {j k : Json} {a b : α} : item depth j a → item depth k b →
      pair item (depth + 1) (.array [j, k]) (a, b)

inductive nullable (inner : Form α) : Form (Option α)
  | null {depth : Nat} : nullable inner depth .null none
  | value {depth : Nat} {j : Json} {a : α} : j ≠ .null → inner depth j a →
      nullable inner depth j (some a)

/-- The text of a volume: any text, the spelling of any number, or any text under the number key. -/
inductive volumeText : Form String
  | string {depth : Nat} (s : String) : volumeText depth (ofString s) s
  | number {depth : Nat} (n : Numeral) : volumeText depth (.number n) n.text
  | tagged {depth : Nat} (s : String) :
      volumeText (depth + 1) (.object [(some numberKey, ofString s)]) s

/-- A field of a record: the keys it may be under, and what it is when it is missing, if it may be. -/
structure Part (α : Type) where
  names : List String
  fallback : Option α

/-- What stands under the keys of a field. -/
def under (names : List String) (entries : List (Option String × Json)) : List Json :=
  (entries.filter fun e => e.1.any (· ∈ names)).map (·.2)

/-- A field is given once, or is missing and has this fallback. -/
def Settles (fallback : Option α) (a : α) : List Json → Prop
  | [] => fallback = some a
  | [_] => True
  | _ => False

/-- What is given for the two fields of a record, in an array by its place, in an object by its key. -/
def shares (xs ys : List String) : Json → Option (List Json × List Json)
  | .array js => some (js.take 1, js.drop 1)
  | .object entries =>
    if entries.all (·.1.isSome) then some (under xs entries, under ys entries) else none
  | _ => none

inductive record (x : Part α) (first : Form α) (y : Part β) (second : Form β) (make : α → β → γ) :
    Form γ
  | intro {depth : Nat} {j : Json} {js ks : List Json} {a : α} {b : β} :
      shares x.names y.names j = some (js, ks) →
      Settles x.fallback a js → (∀ j ∈ js, first depth j a) →
      Settles y.fallback b ks → (∀ k ∈ ks, second depth k b) →
      record x first y second make (depth + 1) j (make a b)

/-! ### Forms in two steps -/

variable {α' β' ε : Type} {depth : Nat} {j : Json}

/-- Where each item is made from something else, the list is made from a list of that. -/
theorem list_then {item : Form α} {item' : Form α'} {make : α → Except ε α'}
    (h : ∀ d j a', item' d j a' ↔ ∃ a, item d j a ∧ make a = .ok a') {as' : List α'} :
    list item' depth j as' ↔
      ∃ as, list item depth j as ∧ List.Forall₂ (fun a a' => make a = .ok a') as as' := by
  constructor
  · intro hlist
    induction hlist with
    | nil => exact ⟨[], .nil, .nil⟩
    | cons hitem _ ih =>
      obtain ⟨a, ha, hmake⟩ := (h _ _ _).1 hitem
      obtain ⟨as, has, hall⟩ := ih
      exact ⟨a :: as, .cons ha has, .cons hmake hall⟩
  · rintro ⟨as, hlist, hall⟩
    induction hlist generalizing as' with
    | nil =>
      cases hall
      exact .nil
    | cons ha _ ih =>
      cases hall with
      | cons hmake hall => exact .cons ((h _ _ _).2 ⟨_, ha, hmake⟩) (ih hall)

theorem settles_none {b : β} {js : List Json} (h : Settles none b js) : ∃ j, js = [j] := by
  rcases js with _ | ⟨j, _ | ⟨k, js⟩⟩
  · nomatch h
  · exact ⟨j, rfl⟩
  · exact h.elim

variable {x : Part α} {y : Part β} {first : Form α} {second : Form β} {make : α → β → γ} {c : γ}

/-- Where the second field, which may not be missing, is made from something else, so is the record. -/
theorem record_then {names : List String} {second' : Form β'} {make' : α → β' → γ}
    {then' : β → Except ε β'}
    (h : ∀ d k b', second' d k b' ↔ ∃ b, second d k b ∧ then' b = .ok b') :
    record x first ⟨names, none⟩ second' make' depth j c ↔ ∃ a b b',
      record x first ⟨names, none⟩ second Prod.mk depth j (a, b) ∧ then' b = .ok b' ∧
        make' a b' = c := by
  constructor
  · rintro ⟨hshares, hsa, ha, hsb, hb⟩
    obtain ⟨k, rfl⟩ := settles_none hsb
    obtain ⟨b, hk, hthen⟩ := (h _ _ _).1 (hb k (List.mem_singleton_self k))
    exact ⟨_, b, _, .intro hshares hsa ha trivial (List.forall_mem_singleton.2 hk), hthen, rfl⟩
  · rintro ⟨a, b, b', ⟨hshares, hsa, ha, hsb, hb⟩, hthen, rfl⟩
    obtain ⟨k, rfl⟩ := settles_none hsb
    have hk := (h _ _ _).2 ⟨b, hb k (List.mem_singleton_self k), hthen⟩
    exact .intro hshares hsa ha trivial (List.forall_mem_singleton.2 hk)

theorem record_pair : record x first y second make depth j c ↔
    ∃ a b, record x first y second Prod.mk depth j (a, b) ∧ make a b = c := by
  constructor
  · rintro ⟨hshares, hsa, ha, hsb, hb⟩
    exact ⟨_, _, .intro hshares hsa ha hsb hb, rfl⟩
  · rintro ⟨a, b, ⟨hshares, hsa, ha, hsb, hb⟩, rfl⟩
    exact .intro hshares hsa ha hsb hb

theorem settles_congr {fallback fallback' : Option α} {a : α} {js : List Json} (h : js ≠ []) :
    Settles fallback a js ↔ Settles fallback' a js := by
  rcases js with _ | ⟨j, _ | ⟨k, js⟩⟩
  · exact absurd rfl h
  · exact Iff.rfl
  · exact Iff.rfl

/-- Where both fields are given their fallbacks do not matter. -/
theorem record_congr {fallback : Option α} {fallback' : Option β}
    (h : ∀ js ks, shares x.names y.names j = some (js, ks) → js ≠ [] ∧ ks ≠ []) :
    record x first y second make depth j c ↔
      record ⟨x.names, fallback⟩ first ⟨y.names, fallback'⟩ second make depth j c := by
  constructor
  · rintro ⟨hshares, hsa, ha, hsb, hb⟩
    obtain ⟨hjs, hks⟩ := h _ _ hshares
    exact .intro hshares ((settles_congr hjs).1 hsa) ha ((settles_congr hks).1 hsb) hb
  · rintro ⟨hshares, hsa, ha, hsb, hb⟩
    obtain ⟨hjs, hks⟩ := h _ _ hshares
    exact .intro hshares ((settles_congr hjs).2 hsa) ha ((settles_congr hks).2 hsb) hb

end Form

/-- Reads exactly what the form spells. -/
def Decoder.Accepts {α : Type} (decode : Decoder α) (form : Form α) (depth : Nat) : Prop :=
  ∀ j a, decode .text depth j = .ok a ↔ form depth j a

structure Field.Accepts {α : Type} (f : Field α) (p : Form.Part α) (form : Form α) (depth : Nat) :
    Prop where
  names_eq : f.names = p.names
  fallback_eq : f.fallback = p.fallback
  decode : f.decode.Accepts form depth

theorem bind_ok {ε α β : Type} {x : Except ε α} {f : α → Except ε β} {b : β} :
    x >>= f = .ok b ↔ ∃ a, x = .ok a ∧ f a = .ok b := by
  cases x with
  | error e => exact ⟨nofun, fun ⟨_, h, _⟩ => nomatch h⟩
  | ok a => exact ⟨fun h => ⟨a, rfl, h⟩, fun ⟨_, h, h'⟩ => by cases h; exact h'⟩

theorem map_ok {ε α β : Type} {x : Except ε α} {f : α → β} {b : β} :
    f <$> x = .ok b ↔ ∃ a, x = .ok a ∧ f a = b := by
  cases x with
  | error e => exact ⟨nofun, fun ⟨_, h, _⟩ => nomatch h⟩
  | ok a => exact ⟨fun h => ⟨a, rfl, Except.ok.inj h⟩, fun ⟨_, h, h'⟩ => by cases h; rw [← h']; rfl⟩

theorem enter_ok {α : Type} {depth : Nat} {inside : Nat → Except DecodeError α} {a : α} :
    enter depth inside = .ok a ↔ ∃ d, depth = d + 1 ∧ inside d = .ok a := by
  cases depth with
  | zero => exact ⟨nofun, fun ⟨_, h, _⟩ => nomatch h⟩
  | succ d => exact ⟨fun h => ⟨d, rfl, h⟩, fun ⟨_, hd, h⟩ => by cases hd; exact h⟩

theorem refuse_ne_ok {α : Type} {wanted : Expectation} {route : Route} {j : Json} {a : α} :
    refuse wanted route j ≠ .ok a := by
  unfold refuse
  split <;> nofun

theorem noMore_ok {length : Nat} {rest : List Json} : noMore .text length rest = .ok () ↔ rest = [] := by
  cases rest with
  | nil => exact ⟨fun _ => rfl, fun _ => rfl⟩
  | cons j js => exact ⟨nofun, nofun⟩

namespace Decoder.Accepts
variable {α β γ : Type} {decode : Decoder α} {form : Form α} {depth : Nat}

theorem string (depth : Nat) : Decoder.string.Accepts .string depth := by
  intro j s
  constructor
  · intro h
    unfold Decoder.string at h
    split at h
    · cases h
      exact .intro _
    · exact absurd h refuse_ne_ok
  · rintro ⟨⟩
    rfl

theorem items_ok (h : decode.Accepts form depth) {js : List Json} {as : List α} :
    items decode .text depth js = .ok as ↔ Form.list form (depth + 1) (.array js) as := by
  induction js generalizing as with
  | nil =>
    rw [items, Except.ok.injEq]
    constructor
    · rintro rfl
      exact .nil
    · rintro ⟨⟩
      rfl
  | cons j js ih =>
    simp only [items, bind_ok, h j _, ih, Except.ok.injEq]
    constructor
    · rintro ⟨a, ha, as, has, rfl⟩
      exact .cons ha has
    · rintro (_ | ⟨ha, has⟩)
      exact ⟨_, ha, _, has, rfl⟩

theorem list (h : ∀ d < depth, decode.Accepts form d) :
    (Decoder.list decode).Accepts (.list form) depth := by
  intro j as
  cases j with
  | array js =>
    rw [Decoder.list, enter_ok]
    constructor
    · rintro ⟨d, rfl, has⟩
      exact (items_ok (h d (Nat.lt_succ_self d))).1 has
    · intro has
      cases depth with
      | zero => nomatch has
      | succ d => exact ⟨d, rfl, (items_ok (h d (Nat.lt_succ_self d))).2 has⟩
  | string s => exact ⟨fun has => absurd has refuse_ne_ok, nofun⟩
  | _ => exact ⟨nofun, nofun⟩

theorem pair (h : ∀ d < depth, decode.Accepts form d) :
    (Decoder.pair decode).Accepts (.pair form) depth := by
  rintro j ⟨a, b⟩
  cases j with
  | array js =>
    rw [Decoder.pair, enter_ok]
    constructor
    · rintro ⟨d, rfl, hpair⟩
      have hd := h d (Nat.lt_succ_self d)
      rcases js with _ | ⟨j, _ | ⟨k, rest⟩⟩
      · nomatch hpair
      · obtain ⟨_, -, h⟩ := bind_ok.1 hpair
        nomatch h
      · obtain ⟨_, ha, hpair⟩ := bind_ok.1 hpair
        obtain ⟨_, hb, hpair⟩ := bind_ok.1 hpair
        obtain ⟨⟨⟩, hrest, hpair⟩ := bind_ok.1 hpair
        cases hpair
        cases noMore_ok.1 hrest
        exact .intro ((hd _ _).1 ha) ((hd _ _).1 hb)
    · rintro ⟨ha, hb⟩
      next d j k =>
      have hd := h d (Nat.lt_succ_self d)
      exact ⟨d, rfl, bind_ok.2 ⟨a, (hd _ _).2 ha, bind_ok.2 ⟨b, (hd _ _).2 hb, rfl⟩⟩⟩
  | string s => exact ⟨fun hpair => absurd hpair refuse_ne_ok, nofun⟩
  | _ => exact ⟨nofun, nofun⟩

theorem nullable (h : decode.Accepts form depth) :
    (Decoder.nullable decode).Accepts (.nullable form) depth := by
  intro j a
  constructor
  · intro hj
    unfold Decoder.nullable at hj
    split at hj
    · cases hj
      exact .null
    · next hnull =>
      obtain ⟨a, ha, rfl⟩ := map_ok.1 hj
      exact .value hnull ((h _ a).1 ha)
  · rintro (_ | ⟨hnull, ha⟩)
    · rfl
    · rw [Decoder.nullable]
      · rw [(h _ _).2 ha]
        rfl
      · exact hnull

theorem volumeText_object {entries : List (Option String × Json)} {s : String} :
    Decoder.volumeText .text depth (.object entries) = .ok s ↔
      0 < depth ∧ entries = [(some numberKey, ofString s)] := by
  show enter depth _ = _ ↔ _
  rw [enter_ok]
  constructor
  · rintro ⟨d, rfl, h⟩
    refine ⟨Nat.succ_pos d, ?_⟩
    rcases entries with _ | ⟨⟨_ | k, j⟩, rest⟩
    · exact absurd h refuse_ne_ok
    · nomatch h
    · simp only at h
      split at h
      · next hk =>
        obtain ⟨s', hs, h⟩ := bind_ok.1 h
        obtain ⟨⟩ := (string _ _ _).1 hs
        split at h
        · next hrest =>
          cases h
          rw [hk, List.isEmpty_iff.1 hrest]
        · nomatch h
      · nomatch h
  · rintro ⟨hpos, rfl⟩
    obtain ⟨d, rfl⟩ := Nat.exists_eq_succ_of_ne_zero (Nat.ne_of_gt hpos)
    exact ⟨d, rfl, rfl⟩

theorem volumeText (depth : Nat) : Decoder.volumeText.Accepts .volumeText depth := by
  intro j s
  cases j with
  | number n =>
    constructor
    · rintro ⟨⟩
      exact .number n
    · rintro ⟨⟩
      rfl
  | string content =>
    cases content with
    | none => exact ⟨nofun, nofun⟩
    | some s =>
      constructor
      · rintro ⟨⟩
        exact .string s
      · rintro ⟨⟩
        rfl
  | object entries =>
    rw [volumeText_object]
    constructor
    · rintro ⟨hpos, rfl⟩
      obtain ⟨d, rfl⟩ := Nat.exists_eq_succ_of_ne_zero (Nat.ne_of_gt hpos)
      exact .tagged s
    · rintro ⟨⟩
      exact ⟨Nat.succ_pos _, rfl⟩
  | _ => exact ⟨nofun, nofun⟩

/-! ### Records -/

/-- What a field has come to after further values, `u` being what it had come to before. -/
def Finds (form : Form α) (depth : Nat) : Option α → List Json → Option α → Prop
  | u, [], v => v = u
  | none, j :: js, v => ∃ a, form depth j a ∧ Finds form depth (some a) js v
  | some _, _ :: _, _ => False

theorem finds_settles {fallback : Option α} {js : List Json} {a : α} :
    (∃ u, Finds form depth none js u ∧ u.or fallback = some a) ↔
      Form.Settles fallback a js ∧ ∀ j ∈ js, form depth j a := by
  rcases js with _ | ⟨j, _ | ⟨k, js⟩⟩
  · simp [Finds, Form.Settles]
  · simp [Finds, Form.Settles]
  · simp [Finds, Form.Settles]

theorem under_cons (names : List String) (k : String) (j : Json)
    (entries : List (Option String × Json)) : Form.under names ((some k, j) :: entries) =
      if k ∈ names then j :: Form.under names entries else Form.under names entries := by
  by_cases hk : k ∈ names <;> simp [Form.under, hk]

section
variable {x : Field α} {y : Field β} {p : Form.Part α} {q : Form.Part β} {other : Form β}

theorem fields_ok (hx : x.Accepts p form depth) (hy : y.Accepts q other depth)
    (hne : ∀ k ∈ p.names, k ∉ q.names) {entries : List (Option String × Json)} {u u' : Option α}
    {v v' : Option β} : fields x y .text depth u v entries = .ok (u', v') ↔
      (∀ e ∈ entries, e.1.isSome) ∧ Finds form depth u (Form.under p.names entries) u' ∧
        Finds other depth v (Form.under q.names entries) v' := by
  induction entries generalizing u v with
  | nil =>
    rw [fields, Except.ok.injEq, Prod.mk.injEq]
    constructor
    · rintro ⟨rfl, rfl⟩
      exact ⟨List.forall_mem_nil _, rfl, rfl⟩
    · rintro ⟨-, rfl, rfl⟩
      exact ⟨rfl, rfl⟩
  | cons e entries ih =>
    obtain ⟨_ | k, j⟩ := e
    · simp [fields]
    · rw [fields, hx.names_eq, hy.names_eq, under_cons, under_cons, List.forall_mem_cons]
      by_cases hp : k ∈ p.names
      · rw [if_pos hp, if_pos hp, if_neg (hne k hp)]
        cases u with
        | some a => simp [Finds]
        | none =>
          simp only [Option.isSome_none, Bool.false_eq_true, if_false, bind_ok, ih, hx.decode j _,
            Option.isSome_some, true_and]
          constructor
          · rintro ⟨a, ha, hkeys, hu, hv⟩
            exact ⟨hkeys, ⟨a, ha, hu⟩, hv⟩
          · rintro ⟨hkeys, ⟨a, ha, hu⟩, hv⟩
            exact ⟨a, ha, hkeys, hu, hv⟩
      · rw [if_neg hp, if_neg hp]
        by_cases hq : k ∈ q.names
        · rw [if_pos hq, if_pos hq]
          cases v with
          | some b => simp [Finds]
          | none =>
            simp only [Option.isSome_none, Bool.false_eq_true, if_false, bind_ok, ih, hy.decode j _,
              Option.isSome_some, true_and]
            constructor
            · rintro ⟨b, hb, hkeys, hu, hv⟩
              exact ⟨hkeys, hu, b, hb, hv⟩
            · rintro ⟨hkeys, hu, b, hb, hv⟩
              exact ⟨b, hb, hkeys, hu, hv⟩
        · rw [if_neg hq, if_neg hq, ih]
          simp

theorem settled_ok {u : Option α} {a : α} : x.settled u = .ok a ↔ u.or x.fallback = some a := by
  unfold Field.settled
  split
  · next h => simp [h]
  · next h => simp [h]

theorem ofItem_ok {name : String} {index : Nat} {o : Option Json} {a : α} (hx : x.Accepts p form depth) :
    x.ofItem name index .text depth o = .ok a ↔
      Form.Settles p.fallback a o.toList ∧ ∀ j ∈ o.toList, form depth j a := by
  cases o with
  | some j => simpa [Field.ofItem, Form.Settles] using hx.decode j a
  | none =>
    rw [Field.ofItem, hx.fallback_eq]
    cases p.fallback <;> simp [Form.Settles]

/-- An array of at most two items. -/
theorem take_drop_one {js : List Json} (h : js.drop 2 = []) :
    js.take 1 = js[0]?.toList ∧ js.drop 1 = js[1]?.toList := by
  rcases js with _ | ⟨j, _ | ⟨k, _ | ⟨l, js⟩⟩⟩
  · exact ⟨rfl, rfl⟩
  · exact ⟨rfl, rfl⟩
  · exact ⟨rfl, rfl⟩
  · nomatch h

theorem drop_two_of_settles {fallback : Option α} {a : α} {js : List Json}
    (h : Form.Settles fallback a (js.drop 1)) : js.drop 2 = [] := by
  rcases js with _ | ⟨j, _ | ⟨k, _ | ⟨l, js⟩⟩⟩
  · rfl
  · rfl
  · rfl
  · exact h.elim

variable (hx : ∀ d < depth, x.Accepts p form d) (hy : ∀ d < depth, y.Accepts q other d)
include hx hy

theorem record_array {name : String} {make : α → β → γ} {js : List Json} {c : γ} :
    Decoder.record name x y make .text depth (.array js) = .ok c ↔
      Form.record p form q other make depth (.array js) c := by
  rw [Decoder.record, enter_ok]
  constructor
  · rintro ⟨d, rfl, h⟩
    obtain ⟨a, ha, h⟩ := bind_ok.1 h
    obtain ⟨b, hb, h⟩ := bind_ok.1 h
    obtain ⟨⟨⟩, hrest, h⟩ := bind_ok.1 h
    cases h
    obtain ⟨hsa, ha⟩ := (ofItem_ok (hx d (Nat.lt_succ_self d))).1 ha
    obtain ⟨hsb, hb⟩ := (ofItem_ok (hy d (Nat.lt_succ_self d))).1 hb
    obtain ⟨hfirst, hsecond⟩ := take_drop_one (noMore_ok.1 hrest)
    rw [← hfirst] at hsa ha
    rw [← hsecond] at hsb hb
    exact .intro rfl hsa ha hsb hb
  · intro h
    cases h with
    | @intro d _ _ _ a b hshares hsa ha hsb hb =>
      cases hshares
      have hrest := drop_two_of_settles hsb
      obtain ⟨hfirst, hsecond⟩ := take_drop_one hrest
      rw [hfirst] at hsa ha
      rw [hsecond] at hsb hb
      exact ⟨d, rfl, bind_ok.2 ⟨a, (ofItem_ok (hx d (Nat.lt_succ_self d))).2 ⟨hsa, ha⟩,
        bind_ok.2 ⟨b, (ofItem_ok (hy d (Nat.lt_succ_self d))).2 ⟨hsb, hb⟩,
          bind_ok.2 ⟨(), noMore_ok.2 hrest, rfl⟩⟩⟩⟩

variable (hne : ∀ k ∈ p.names, k ∉ q.names)
include hne

theorem record_object {name : String} {make : α → β → γ}
    {entries : List (Option String × Json)} {c : γ} :
    Decoder.record name x y make .text depth (.object entries) = .ok c ↔
      Form.record p form q other make depth (.object entries) c := by
  rw [Decoder.record, enter_ok]
  constructor
  · rintro ⟨d, rfl, h⟩
    obtain ⟨⟨u, v⟩, hfields, h⟩ := bind_ok.1 h
    obtain ⟨a, ha, h⟩ := bind_ok.1 h
    obtain ⟨b, hb, h⟩ := bind_ok.1 h
    cases h
    have hxd := hx d (Nat.lt_succ_self d)
    have hyd := hy d (Nat.lt_succ_self d)
    obtain ⟨hkeys, hu, hv⟩ := (fields_ok hxd hyd hne).1 hfields
    rw [settled_ok, hxd.fallback_eq] at ha
    rw [settled_ok, hyd.fallback_eq] at hb
    obtain ⟨hsa, ha⟩ := finds_settles.1 ⟨u, hu, ha⟩
    obtain ⟨hsb, hb⟩ := finds_settles.1 ⟨v, hv, hb⟩
    exact .intro (if_pos (List.all_eq_true.2 hkeys)) hsa ha hsb hb
  · intro h
    cases h with
    | @intro d _ _ _ a b hshares hsa ha hsb hb =>
      obtain ⟨hkeys, hshares⟩ := Option.ite_none_right_eq_some.1 hshares
      cases hshares
      have hxd := hx d (Nat.lt_succ_self d)
      have hyd := hy d (Nat.lt_succ_self d)
      obtain ⟨u, hu, ha⟩ := finds_settles.2 ⟨hsa, ha⟩
      obtain ⟨v, hv, hb⟩ := finds_settles.2 ⟨hsb, hb⟩
      rw [← hxd.fallback_eq, ← settled_ok] at ha
      rw [← hyd.fallback_eq, ← settled_ok] at hb
      have hfields := (fields_ok hxd hyd hne).2 ⟨List.all_eq_true.1 hkeys, hu, hv⟩
      exact ⟨d, rfl, bind_ok.2 ⟨(u, v), hfields, bind_ok.2 ⟨a, ha, bind_ok.2 ⟨b, hb, rfl⟩⟩⟩⟩

theorem record {name : String} {make : α → β → γ} :
    (Decoder.record name x y make).Accepts (.record p form q other make) depth := by
  intro j c
  cases j with
  | array js => exact record_array hx hy
  | object entries => exact record_object hx hy hne
  | string s => exact ⟨fun h => absurd h refuse_ne_ok, fun ⟨hshares, _, _, _, _⟩ => nomatch hshares⟩
  | _ => exact ⟨nofun, fun ⟨hshares, _, _, _, _⟩ => nomatch hshares⟩

end

end Decoder.Accepts
end FairShare.Json
