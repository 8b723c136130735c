import FairShare.Proofs.Outcome.Reading
import FairShare.Request

/-!
# A written request is read as that request

Forests nest as deep as they like, so how deep a reader has to go is read off the tree that is
written (`Json.nesting`): each part is recovered where as many levels may be entered as it nests. The
induction for nodes is on the levels that their reader goes through, since every node that a node
holds is written deeper in. A leaf is written without the key of its forest and is told from a node
with an empty one by the fallback of that key (`Node.recovers`). Groups nest a fixed number of levels.
They are first read as drafts, and the text of a volume is read as that volume afterwards
(`Request.groupsOf_drafts`).
-/

namespace FairShare
namespace Json

mutual

/-- How many containers are entered on the way to the innermost part. -/
def nesting : Json → Nat
  | .array items => nestingOfItems items + 1
  | .object fields => nestingOfFields fields + 1
  | _ => 0

def nestingOfItems : List Json → Nat
  | [] => 0
  | j :: js => max j.nesting (nestingOfItems js)

def nestingOfFields : List (Option String × Json) → Nat
  | [] => 0
  | (_, j) :: fs => max j.nesting (nestingOfFields fs)

end

theorem nesting_le_of_mem {j : Json} {js : List Json} (hj : j ∈ js) :
    j.nesting ≤ nestingOfItems js := by
  induction js with
  | nil => nomatch hj
  | cons k js ih =>
    rw [nestingOfItems]
    rcases List.mem_cons.1 hj with rfl | hj
    · exact Nat.le_max_left ..
    · exact (ih hj).trans (Nat.le_max_right ..)

theorem nesting_array (js : List Json) : (Json.array js).nesting = nestingOfItems js + 1 := rfl

theorem nesting_pair (kx ky : String) (j k : Json) :
    (ofFields [(kx, j), (ky, k)]).nesting = max j.nesting k.nesting + 1 := by
  show max j.nesting (max k.nesting 0) + 1 = _
  rw [Nat.max_zero]

/-- A list is recovered if its items are, each as deep as it nests. -/
theorem Decoder.Recovers.list_nesting {α : Type} {decode : Decoder α} {w : α → Json} {as : List α}
    (h : ∀ a ∈ as, decode.Recovers (w a).nesting (w a) a) :
    (Decoder.list decode).Recovers (Json.array (as.map w)).nesting (.array (as.map w)) as :=
  .list fun a ha => (h a ha).mono (nesting_le_of_mem (List.mem_map_of_mem ha))

end Json

open Json Decoder

/-! ### Forests -/

theorem Tier.items_eq (tier : List Node) : Tier.items tier = tier.map Node.toJson := by
  induction tier with
  | nil => rfl
  | cons node tier ih => rw [Tier.items, ih, List.map_cons]

theorem Forest.items_eq (forest : List (List Node)) :
    Forest.items forest = forest.map fun tier => .array (tier.map Node.toJson) := by
  induction forest with
  | nil => rfl
  | cons tier forest ih => rw [Forest.items, ih, Tier.items_eq, List.map_cons]

theorem Forest.nesting_le {forest : Forest} {tier : Tier} {n : Node} (ht : tier ∈ forest)
    (hn : n ∈ tier) : n.toJson.nesting + 2 ≤ (Json.array (Forest.items forest)).nesting := by
  have htier : Json.array (tier.map Node.toJson) ∈ Forest.items forest := by
    rw [Forest.items_eq]
    exact List.mem_map_of_mem ht
  have houter := nesting_le_of_mem htier
  have hinner := nesting_le_of_mem (List.mem_map_of_mem (f := Node.toJson) hn)
  rw [nesting_array] at houter ⊢
  omega

theorem Node.nesting_pos (n : Node) : 0 < n.toJson.nesting := by
  obtain ⟨id, _ | forest⟩ := n <;> exact Nat.succ_pos _

theorem Forest.recovers_of {decode : Decoder Node} {forest : Forest}
    (h : ∀ tier ∈ forest, ∀ n ∈ tier, decode.Recovers n.toJson.nesting n.toJson n) :
    (Decoder.list (.list decode)).Recovers (Json.array (Forest.items forest)).nesting
      (.array (Forest.items forest)) forest := by
  rw [Forest.items_eq]
  exact .list_nesting fun tier ht => .list_nesting (h tier ht)

theorem Node.recovers_within {levels : Nat} {n : Node} (h : n.toJson.nesting ≤ levels) :
    (Node.decodeWithin levels).Recovers n.toJson.nesting n.toJson n := by
  induction levels generalizing n with
  | zero => exact absurd n.nesting_pos (Nat.not_lt.2 h)
  | succ levels ih =>
    obtain ⟨id, _ | forest⟩ := n
    · exact .first (by decide) (by decide) rfl (.string id)
    · have hnesting : (Node.toJson ⟨id, some forest⟩).nesting =
          (Json.array (Forest.items forest)).nesting + 1 := by
        rw [Node.toJson, nesting_pair]
        exact congrArg (· + 1) (Nat.zero_max _)
      have hforest : (Decoder.list (.list (Node.decodeWithin levels))).Recovers
          (Json.array (Forest.items forest)).nesting (.array (Forest.items forest)) forest :=
        Forest.recovers_of fun tier ht n hn => ih <| by
          have := Forest.nesting_le ht hn
          omega
      rw [hnesting]
      exact .record (by decide) (by decide) List.mem_cons_self (by decide) (.string id)
        hforest.nullable

theorem Node.recovers (n : Node) : Node.decode.Recovers n.toJson.nesting n.toJson n where
  legible := (Node.recovers_within (Nat.le_refl _)).legible
  text d hd := (Node.recovers_within (Nat.le_succ_of_le hd)).text d hd
  value d hd := (Node.recovers_within (Nat.le_succ_of_le hd)).value d hd

theorem Forest.recovers (f : Forest) :
    Forest.decode.Recovers (Forest.toJson f).nesting (Forest.toJson f) f :=
  Forest.recovers_of fun _ _ n _ => n.recovers

/-! ### Drafts -/

namespace Request

def Draft.ofEntity (e : Entity) : Draft := ⟨e.id, e.volume.text⟩

def Draft.toJson (d : Draft) : Json :=
  ofFields [("id", ofString d.id), ("volume", ofString d.volume)]

theorem Draft.recovers (d : Draft) : Draft.decode.Recovers 1 d.toJson d :=
  .record (by decide) (by decide) (by decide) (by decide) (.string d.id)
    ⟨.string _, fun _ _ => rfl, fun _ _ => ⟨ofString d.volume, rfl, rfl⟩⟩

def drafts (g : Groups) : BySide (List Draft) := g.map fun es => es.map Draft.ofEntity

theorem recovers_drafts (g : Groups) :
    (Groups.decodeWith Draft.decode).Recovers 3 g.toJson (drafts g) := by
  have hjson : g.toJson =
      .array [.array ((drafts g).demand.map Draft.toJson), .array ((drafts g).supply.map Draft.toJson)] := by
    simp only [drafts, BySide.map, List.map_map]
    rfl
  rw [hjson]
  exact .map BySide.ofPair (.pair (.list fun d _ => d.recovers) (.list fun d _ => d.recovers))

theorem entities_drafts (es : List Entity) : entities (es.map Draft.ofEntity) = .ok es := by
  induction es with
  | nil => rfl
  | cons e es ih =>
    have he : (Draft.ofEntity e).entity = .ok e := by
      simp only [Draft.entity, Draft.ofEntity, Volume.ofText_text]
      rfl
    rw [List.map_cons, entities, he, ih]
    rfl

theorem groupsOf_drafts (g : Groups) : groupsOf (drafts g) = .ok g := by
  simp only [groupsOf, drafts, BySide.map, entities_drafts]
  rfl

theorem recovers (r : Request) (h : r.toJson.nesting ≤ maxDepth) :
    decodeDraft.Recovers maxDepth r.toJson (r.priority, drafts r.groups) := by
  rw [toJson, nesting_pair] at h
  have hforest : (Forest.toJson r.priority).nesting ≤ 126 :=
    (Nat.le_max_left ..).trans (Nat.le_of_succ_le_succ h)
  exact .record (by decide) (by decide) (by decide) (by decide)
    ((Forest.recovers r.priority).mono hforest) ((recovers_drafts r.groups).mono (by decide))

/-- Whatever its ids, volumes and forests are, a request that is written, in either layout, is read
again as what it is, unless it nests deeper than a reader goes. -/
theorem ofText_toJson (r : Request) (h : r.toJson.nesting ≤ maxDepth) :
    ofText r.toJson.compact = .ok r ∧ ofText r.toJson.pretty = .ok r := by
  have hread : ∀ s, readText decodeDraft s = .ok (r.priority, drafts r.groups) → ofText s = .ok r := by
    intro s hs
    rw [ofText, hs]
    simp only [groupsOf_drafts]
  exact ⟨hread _ ((recovers r h).read_compact (Nat.le_refl _)).1,
    hread _ ((recovers r h).read_pretty (Nat.le_refl _)).1⟩

/-- A leaf, a node with an empty forest, and ids that need escapes. -/
def sampleRequest : Request where
  priority := [[⟨"a", none⟩, ⟨"é\"", some []⟩, ⟨"\x01\\", some [[.leaf "x", ⟨"x", some [[]]⟩], []]⟩]]
  groups := ⟨[⟨"é\"", .clamp 7⟩], [⟨"x", .clamp Volume.limit⟩, ⟨"", .zero⟩]⟩

theorem ofText_toJson_sample : sampleRequest.toJson.nesting ≤ maxDepth ∧
    ofText sampleRequest.toJson.compact = .ok sampleRequest ∧ ofText sampleRequest.toJson.pretty = .ok sampleRequest :=
  ⟨by decide, ofText_toJson sampleRequest (by decide)⟩

end Request
end FairShare
