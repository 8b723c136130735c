import FairShare.Json.Decode
import FairShare.Proofs.Json.Printing
import Mathlib.Data.List.Forall2

/-!
# What is written is recovered

A tree recovers a thing through a decoder if both routes read the tree as that thing wherever a given
number of levels may still be entered: on the text route the tree as it stands, on the value route the
value that it stands for. Lists, pairs and records recover what their parts do, one level further up.
The entries of a record are put in the order of their keys on the way to its value, so they have to be
read in either order (`Decoder.fields_of`, `Decoder.fields_of_swap`).
-/

namespace FairShare.Json

variable {α β γ : Type} {depth : Nat} {j k : Json}

/-! ### Reading on one route -/

namespace Decoder
variable {route : Route} {decode : Decoder α} {a b : α}

theorem items_of {js : List Json} {as : List α}
    (h : List.Forall₂ (fun j a => decode route depth j = .ok a) js as) :
    items decode route depth js = .ok as := by
  induction h with
  | nil => rfl
  | cons ha _ ih =>
    rw [items, ha, ih]
    rfl

theorem pair_of (ha : decode route depth j = .ok a) (hb : decode route depth k = .ok b) :
    pair decode route (depth + 1) (.array [j, k]) = .ok (a, b) := by
  simp only [pair, enter, ha, hb]
  rfl

variable {x : Field α} {y : Field β} {kx ky : String} {b : β}

/-- Two entries that each field finds its own in. -/
theorem fields_of (hx : kx ∈ x.names) (hyx : ky ∉ x.names) (hy : ky ∈ y.names)
    (ha : x.decode route depth j = .ok a) (hb : y.decode route depth k = .ok b) :
    fields x y route depth none none [(some kx, j), (some ky, k)] = .ok (some a, some b) := by
  rw [fields, if_pos hx, ha]
  show fields x y route depth (some a) none [(some ky, k)] = _
  rw [fields, if_neg hyx, if_pos hy, hb]
  rfl

theorem fields_of_swap (hx : kx ∈ x.names) (hyx : ky ∉ x.names) (hy : ky ∈ y.names)
    (ha : x.decode route depth j = .ok a) (hb : y.decode route depth k = .ok b) :
    fields x y route depth none none [(some ky, k), (some kx, j)] = .ok (some a, some b) := by
  rw [fields, if_neg hyx, if_pos hy, hb]
  show fields x y route depth none (some b) [(some kx, j)] = _
  rw [fields, if_pos hx, ha]
  rfl

theorem record_of {name : String} {make : α → β → γ} {entries : List (Option String × Json)}
    (h : fields x y route depth none none entries = .ok (some a, some b)) :
    record name x y make route (depth + 1) (.object entries) = .ok (make a b) := by
  simp only [record, enter, h]
  rfl

/-- The second field is settled without an entry. -/
theorem record_of_first {name : String} {make : α → β → γ} (hx : kx ∈ x.names)
    (hy : y.fallback = some b) (ha : x.decode route depth j = .ok a) :
    record name x y make route (depth + 1) (.object [(some kx, j)]) = .ok (make a b) := by
  have hfields : fields x y route depth none none [(some kx, j)] = .ok (some a, none) := by
    rw [fields, if_pos hx, ha]
    rfl
  simp only [record, enter, hfields, Field.settled, hy]
  rfl

end Decoder

theorem sortFields_pair {kx ky : String} (hne : kx ≠ ky) (v w : Json) :
    sortFields [(kx, v), (ky, w)] = [(kx, v), (ky, w)] ∨
      sortFields [(kx, v), (ky, w)] = [(ky, w), (kx, v)] := by
  show insertField ky w [(kx, v)] = _ ∨ insertField ky w [(kx, v)] = _
  rw [insertField]
  split
  · exact .inr rfl
  · rw [if_neg (Ne.symm hne)]
    exact .inl rfl

/-! ### Recovering on both routes -/

structure Decoder.Recovers (decode : Decoder α) (depth : Nat) (j : Json) (a : α) : Prop where
  legible : j.Legible
  text : ∀ d, depth ≤ d → decode .text d j = .ok a
  value : ∀ d, depth ≤ d → ∃ v, value? d j = some v ∧ decode .value d v = .ok a

theorem exists_eq_succ {d : Nat} (h : depth + 1 ≤ d) : ∃ n, d = n + 1 ∧ depth ≤ n :=
  ⟨d - 1, by omega, by omega⟩

namespace Decoder.Recovers
variable {decode : Decoder α} {a b : α}

/-- From a text that spells the tree, both readers get the thing. -/
theorem read (h : decode.Recovers depth j a) (hd : depth ≤ maxDepth) {s : String}
    (hs : ofText? s = some j) : readText decode s = .ok a ∧ readValue decode s = .ok a := by
  constructor
  · rw [readText, hs]
    simp only [h.text maxDepth hd]
  · obtain ⟨v, hv, hdecode⟩ := h.value maxDepth hd
    rw [readValue, hs, Option.bind_some, valueOf?, hv]
    simp only [decodeValue, hdecode]
    rfl

theorem read_compact (h : decode.Recovers depth j a) (hd : depth ≤ maxDepth) :
    readText decode j.compact = .ok a ∧ readValue decode j.compact = .ok a :=
  h.read hd (ofText?_compact h.legible)

theorem read_pretty (h : decode.Recovers depth j a) (hd : depth ≤ maxDepth) :
    readText decode j.pretty = .ok a ∧ readValue decode j.pretty = .ok a :=
  h.read hd (ofText?_pretty h.legible)

theorem string (s : String) : Decoder.string.Recovers depth (ofString s) s where
  legible := .string _
  text _ _ := rfl
  value _ _ := ⟨ofString s, rfl, rfl⟩

theorem mono {d : Nat} (h : decode.Recovers depth j a) (hd : depth ≤ d) : decode.Recovers d j a where
  legible := h.legible
  text n hn := h.text n (Nat.le_trans hd hn)
  value n hn := h.value n (Nat.le_trans hd hn)

theorem map (f : α → β) (h : decode.Recovers depth j a) :
    Decoder.Recovers (fun route d j => f <$> decode route d j) depth j (f a) where
  legible := h.legible
  text d hd := by rw [h.text d hd]; rfl
  value d hd := by
    obtain ⟨v, hv, hdecode⟩ := h.value d hd
    exact ⟨v, hv, by rw [hdecode]; rfl⟩

theorem values {w : α → Json} {as : List α} (h : ∀ a ∈ as, decode.Recovers depth (w a) a) :
    ∃ vs, values? depth (as.map w) = some vs ∧
      List.Forall₂ (fun v a => decode .value depth v = .ok a) vs as := by
  induction as with
  | nil => exact ⟨[], rfl, .nil⟩
  | cons a as ih =>
    obtain ⟨ha, has⟩ := List.forall_mem_cons.1 h
    obtain ⟨v, hv, hdecode⟩ := ha.value depth (Nat.le_refl _)
    obtain ⟨vs, hvs, hall⟩ := ih has
    refine ⟨v :: vs, ?_, .cons hdecode hall⟩
    rw [List.map_cons, values?, hv, hvs]
    rfl

theorem list {w : α → Json} {as : List α} (h : ∀ a ∈ as, decode.Recovers depth (w a) a) :
    (Decoder.list decode).Recovers (depth + 1) (.array (as.map w)) as where
  legible := .array fun j hj => by
    obtain ⟨a, ha, rfl⟩ := List.mem_map.1 hj
    exact (h a ha).legible
  text d hd := by
    obtain ⟨n, rfl, hn⟩ := exists_eq_succ hd
    exact items_of (List.forall₂_map_left_iff.2 (List.forall₂_same.2 fun a ha => (h a ha).text n hn))
  value d hd := by
    obtain ⟨n, rfl, hn⟩ := exists_eq_succ hd
    obtain ⟨vs, hvs, hall⟩ := values fun a ha => (h a ha).mono hn
    refine ⟨.array vs, ?_, items_of hall⟩
    rw [value?, if_neg (Nat.succ_ne_zero n), Nat.add_sub_cancel, hvs]
    rfl

theorem pair {a b : α} (ha : decode.Recovers depth j a) (hb : decode.Recovers depth k b) :
    (Decoder.pair decode).Recovers (depth + 1) (.array [j, k]) (a, b) where
  legible := .array (List.forall_mem_cons.2 ⟨ha.legible, List.forall_mem_singleton.2 hb.legible⟩)
  text d hd := by
    obtain ⟨n, rfl, hn⟩ := exists_eq_succ hd
    exact pair_of (ha.text n hn) (hb.text n hn)
  value d hd := by
    obtain ⟨n, rfl, hn⟩ := exists_eq_succ hd
    obtain ⟨v, hv, hdv⟩ := ha.value n hn
    obtain ⟨w, hw, hdw⟩ := hb.value n hn
    refine ⟨.array [v, w], ?_, pair_of hdv hdw⟩
    rw [value?, if_neg (Nat.succ_ne_zero n), Nat.add_sub_cancel, values?, values?, values?, hv, hw]
    rfl

/-- A record of two entries. The first key is not that of a number. -/
theorem record {x : Field α} {y : Field β} {kx ky : String} {b : β} {name : String}
    {make : α → β → γ} (hx : kx ∈ x.names) (hyx : ky ∉ x.names) (hy : ky ∈ y.names)
    (hkey : kx ≠ numberKey) (ha : x.decode.Recovers depth j a) (hb : y.decode.Recovers depth k b) :
    (Decoder.record name x y make).Recovers (depth + 1) (ofFields [(kx, j), (ky, k)]) (make a b) where
  legible := .object (List.forall_mem_cons.2 ⟨ha.legible, List.forall_mem_singleton.2 hb.legible⟩)
  text d hd := by
    obtain ⟨n, rfl, hn⟩ := exists_eq_succ hd
    exact record_of (fields_of hx hyx hy (ha.text n hn) (hb.text n hn))
  value d hd := by
    obtain ⟨n, rfl, hn⟩ := exists_eq_succ hd
    obtain ⟨v, hv, hdv⟩ := ha.value n hn
    obtain ⟨w, hw, hdw⟩ := hb.value n hn
    have hvalue : value? (n + 1) (ofFields [(kx, j), (ky, k)]) =
        some (ofFields (sortFields [(kx, v), (ky, w)])) := by
      have htag : startsTagged [(some kx, j), (some ky, k)] = false := by simpa [startsTagged] using hkey
      show value? (n + 1) (.object [(some kx, j), (some ky, k)]) = _
      rw [value?, if_neg (Nat.succ_ne_zero n), htag, if_neg Bool.false_ne_true, Nat.add_sub_cancel,
        fieldValues?, fieldValues?, fieldValues?, hv, hw]
      rfl
    refine ⟨_, hvalue, ?_⟩
    have hne : kx ≠ ky := fun heq => hyx (heq ▸ hx)
    rcases sortFields_pair hne v w with hsort | hsort
    · rw [hsort]
      exact record_of (fields_of hx hyx hy hdv hdw)
    · rw [hsort]
      exact record_of (fields_of_swap hx hyx hy hdv hdw)

/-- A record whose second field is written only where it is not its fallback. -/
theorem first {x : Field α} {y : Field β} {kx : String} {b : β} {name : String}
    {make : α → β → γ} (hx : kx ∈ x.names) (hkey : kx ≠ numberKey) (hy : y.fallback = some b)
    (ha : x.decode.Recovers depth j a) :
    (Decoder.record name x y make).Recovers (depth + 1) (ofFields [(kx, j)]) (make a b) where
  legible := .object (List.forall_mem_singleton.2 ha.legible)
  text d hd := by
    obtain ⟨n, rfl, hn⟩ := exists_eq_succ hd
    exact record_of_first hx hy (ha.text n hn)
  value d hd := by
    obtain ⟨n, rfl, hn⟩ := exists_eq_succ hd
    obtain ⟨v, hv, hdv⟩ := ha.value n hn
    have htag : startsTagged [(some kx, j)] = false := by simpa [startsTagged] using hkey
    refine ⟨ofFields [(kx, v)], ?_, record_of_first hx hy hdv⟩
    show value? (n + 1) (.object [(some kx, j)]) = _
    rw [value?, if_neg (Nat.succ_ne_zero n), htag, if_neg Bool.false_ne_true, Nat.add_sub_cancel,
      fieldValues?, fieldValues?, hv]
    rfl

/-- An array is no null. -/
theorem nullable {js : List Json} (h : decode.Recovers depth (.array js) a) :
    (Decoder.nullable decode).Recovers depth (.array js) (some a) where
  legible := h.legible
  text d hd := by
    show some <$> decode .text d (.array js) = _
    rw [h.text d hd]
    rfl
  value d hd := by
    obtain ⟨v, hv, hdecode⟩ := h.value d hd
    refine ⟨v, hv, ?_⟩
    have hnull : v ≠ .null := by
      rintro rfl
      rw [value?] at hv
      split at hv
      · nomatch hv
      · obtain ⟨_, -, h⟩ := Option.map_eq_some_iff.1 hv
        nomatch h
    rw [Decoder.nullable]
    · rw [hdecode]
      rfl
    · exact hnull

end Decoder.Recovers
end FairShare.Json
