import FairShare.Proofs.Ledger.Books
import FairShare.Proofs.Ledger.Checked
import Mathlib.Data.List.Basic

/-!
# The history of a ledger

A ledger is set up from groups, and from then on there are only transfers. `Ledger.Follows` is what any
of them keeps as long as both slots hold the volume: the ids stay those of the groups, what a slot holds
and what has been moved at it come to what was declared, and each side has lost all that was moved. An
`Index` that is entered once, while the groups are read, has the same answers as the ledger for ever
(`Ledger.follows_transferAll`), for it depends on nothing but the ids.
-/

namespace FairShare

/-! ### Indices -/

/-- Where the entities of one side are, by their ids. -/
abbrev Index := Std.HashMap String Nat

namespace Index
variable {index : Index} {ids : List String} {id : String}

/-- Enters entities under their ids, each at the next place, up to one whose id has a place already. -/
def enter (side : Side) (index : Index) (place : Nat) : List Entity → Except Fault Index
  | [] => .ok index
  | e :: es =>
    if e.id ∈ index then .error (.duplicateEntity side e.id)
    else enter side (index.insert e.id place) (place + 1) es

/-- The indices of both sides, unless an id is repeated on one. -/
def ofGroups (groups : Groups) : Except Fault (BySide Index) := do
  let demand ← enter .demand ∅ 0 groups.demand
  let supply ← enter .supply ∅ 0 groups.supply
  .ok ⟨demand, supply⟩

/-- The index has every id of the list at its place, and no other. -/
def Finds (index : Index) (ids : List String) : Prop :=
  ∀ (id : String) (place : Nat), index[id]? = some place ↔ ids[place]? = some id

theorem finds_empty : Finds ∅ [] := fun id place => by simp

theorem Finds.mem_iff (h : index.Finds ids) : id ∈ index ↔ id ∈ ids := by
  rw [Std.HashMap.mem_iff_isSome_getElem?, Option.isSome_iff_exists, List.mem_iff_getElem?]
  exact exists_congr fun place => h id place

theorem getElem?_concat_eq_some_iff {other : String} {place : Nat} :
    (ids ++ [id])[place]? = some other ↔
      ids[place]? = some other ∨ place = ids.length ∧ id = other := by
  rcases Nat.lt_trichotomy place ids.length with hlt | rfl | hgt
  · rw [List.getElem?_append_left hlt]
    exact (or_iff_left fun hplace => Nat.ne_of_lt hlt hplace.1).symm
  · rw [List.getElem?_concat_length, List.getElem?_eq_none (Nat.le_refl _), Option.some_inj]
    simp
  · have hlen : (ids ++ [id]).length ≤ place := by
      rw [List.length_append]
      exact hgt
    rw [List.getElem?_eq_none hlen, List.getElem?_eq_none (Nat.le_of_lt hgt)]
    simp [Nat.ne_of_gt hgt]

theorem Finds.insert (h : index.Finds ids) (hnew : id ∉ ids) :
    Finds (index.insert id ids.length) (ids ++ [id]) := by
  intro other place
  rw [Std.HashMap.getElem?_insert, getElem?_concat_eq_some_iff, ← h other place]
  by_cases hid : id = other
  · subst hid
    have hnone : index[id]? = none :=
      Std.HashMap.getElem?_eq_none (mt h.mem_iff.1 hnew)
    simp [hnone, eq_comm]
  · simp [hid]

/-- Entering stops at the first id that is repeated; if there is none, all are found. -/
theorem Finds.enter (h : index.Finds ids) (side : Side) (es : List Entity) :
    match firstRepeat ids.reverse (idsOf es) with
    | some id => index.enter side ids.length es = .error (.duplicateEntity side id)
    | none => ∃ full, index.enter side ids.length es = .ok full ∧ full.Finds (ids ++ idsOf es) := by
  induction es generalizing index ids with
  | nil => exact ⟨index, rfl, by rwa [idsOf, List.map_nil, List.append_nil]⟩
  | cons e es ih =>
    have hids : ids ++ idsOf (e :: es) = (ids ++ [e.id]) ++ idsOf es := by
      rw [List.append_assoc]; rfl
    rw [hids, idsOf, List.map_cons, firstRepeat]
    simp only [Index.enter, List.mem_reverse, h.mem_iff]
    by_cases hold : e.id ∈ ids
    · rw [if_pos hold, if_pos hold]
    · have hrest := ih (h.insert hold)
      rw [List.reverse_concat, List.length_append] at hrest
      rw [if_neg hold, if_neg hold]
      exact hrest

/-- The indices of groups are refused as their ledger is; otherwise they find all ids of the ledger. -/
theorem ofGroups_spec (groups : Groups) :
    (∀ fault, Ledger.ofGroups groups = .error fault → ofGroups groups = .error fault) ∧
    ∀ l, Ledger.ofGroups groups = .ok l →
      ∃ index, ofGroups groups = .ok index ∧ ∀ side, (index.get side).Finds (l.ids side) := by
  have hdemand := finds_empty.enter .demand groups.demand
  have hsupply := finds_empty.enter .supply groups.supply
  rw [List.reverse_nil, List.length_nil] at hdemand hsupply
  refine ⟨fun fault hl => ?_, fun l hl => ?_⟩
  · unfold Ledger.ofGroups at hl
    split at hl
    · next id hid =>
      rw [hid] at hdemand
      cases hl
      rw [ofGroups, hdemand]
      rfl
    · next hnone =>
      rw [hnone] at hdemand
      obtain ⟨demand, hdemand, -⟩ := hdemand
      split at hl
      · next id hid =>
        rw [hid] at hsupply
        cases hl
        rw [ofGroups, hdemand, hsupply]
        rfl
      · cases hl
  · obtain rfl := Ledger.ofGroups_eq_ok_iff.1 hl
    have hnone : ∀ side, firstRepeat [] (idsOf (l.slots.get side)) = none := fun side =>
      firstRepeat_eq_none_iff.2 ⟨l.nodup side, fun _ _ => List.not_mem_nil⟩
    rw [show firstRepeat [] (idsOf l.slots.demand) = none from hnone .demand] at hdemand
    rw [show firstRepeat [] (idsOf l.slots.supply) = none from hnone .supply] at hsupply
    obtain ⟨demand, hdemand, hfindsDemand⟩ := hdemand
    obtain ⟨supply, hsupply, hfindsSupply⟩ := hsupply
    refine ⟨⟨demand, supply⟩, ?_, Side.forall_iff.2 ⟨hfindsDemand, hfindsSupply⟩⟩
    rw [ofGroups, hdemand, hsupply]
    rfl

/-- What finds the ids of a ledger finds its slots. -/
theorem Finds.position_eq {l : Ledger} {side : Side} (h : index.Finds (l.ids side)) (id : String) :
    l.position side id = index[id]? :=
  Option.ext fun i => Ledger.position_eq_some_iff.trans (h id i).symm

end Index

/-! ### Transfers -/

/-- A slot that holds the volume loses all of it. -/
theorem unitsIn_modify_draw {es : List Entity} {i : Nat} {v : Volume}
    (h : v ≤ ((es[i]?).map (·.volume)).getD .zero) :
    unitsIn (volumesOf (es.modify i (·.draw v))) + v.units = unitsIn (volumesOf es) := by
  induction es generalizing i with
  | nil =>
    have hv : v.units ≤ 0 := h
    rw [List.modify_nil, Nat.le_zero.1 hv, Nat.add_zero]
  | cons e es ih =>
    cases i with
    | zero =>
      have hv : v.units ≤ e.volume.units := h
      show e.volume.units - v.units + unitsIn (volumesOf es) + v.units =
        e.volume.units + unitsIn (volumesOf es)
      omega
    | succ i =>
      have hrest : _ + v.units = _ := ih h
      show e.volume.units + unitsIn (volumesOf (es.modify i (·.draw v))) + v.units =
        e.volume.units + unitsIn (volumesOf es)
      rw [Nat.add_assoc, hrest]

namespace Ledger
variable {l : Ledger} {groups : Groups} {before table : List (Edge × Volume)}

theorem leftovers_true (l : Ledger) (side : Side) : (l.leftovers true).get side = l.slots.get side := by
  rw [leftovers, BySide.get_map]
  exact List.filter_eq_self.2 fun _ _ => rfl

/-- The ledger of some groups after the transfers of a table. -/
structure Follows (groups : Groups) (table : List (Edge × Volume)) (l : Ledger) : Prop where
  ids : ∀ side, l.ids side = idsOf (groups.get side)
  remaining : ∀ side i e, (groups.get side)[i]? = some e →
    (l.remaining side i).units + unitsAlong (·.isAt side i) table = e.volume.units
  total : ∀ side, unitsIn (volumesOf (l.slots.get side)) + unitsIn (table.map (·.2)) =
    unitsIn (volumesOf (groups.get side))

namespace Follows

theorem start (h : ofGroups groups = .ok l) : Follows groups [] l := by
  obtain rfl := ofGroups_eq_ok_iff.1 h
  refine ⟨fun _ => rfl, fun side i e he => ?_, fun _ => rfl⟩
  rw [remaining_eq, he]
  rfl

/-- A transfer takes the same from one slot on each side. -/
theorem transfer (h : Follows groups before l) {g : Edge × Volume}
    (hheld : ∀ side, g.2 ≤ l.remaining side (g.1.ends.get side)) :
    Follows groups (before ++ [g]) (l.transfer g.1.demand g.1.supply g.2) where
  ids side := (ids_transfer ..).trans (h.ids side)
  remaining side i e he := by
    have hbefore := h.remaining side i e he
    have hside : g.2.units ≤ (l.remaining side (g.1.ends.get side)).units := hheld side
    rw [units_remaining_transfer, unitsAlong_append, unitsAlong_cons, unitsAlong_nil, Nat.add_zero]
    show (_ - if g.1.ends.get side = i then _ else _) + _ = _
    simp only [Edge.isAt_iff]
    split
    · next hat =>
      rw [hat] at hside
      omega
    · omega
  total side := by
    have hbefore := h.total side
    have hside := hheld side
    rw [remaining_eq] at hside
    have hdraw := unitsIn_modify_draw hside
    rw [slots_transfer, List.map_append, unitsIn_append]
    show unitsIn (volumesOf ((l.slots.get side).modify (g.1.ends.get side) _)) + (_ + (g.2.units + 0)) = _
    omega

theorem transferAll (h : Follows groups before l) (hcovers : l.Covers table) :
    Follows groups (before ++ table) (l.transferAll table) := by
  induction table generalizing before l with
  | nil => rwa [List.append_nil]
  | cons g table ih =>
    have hstep := h.transfer (Side.forall_iff.2 hcovers.1)
    rw [List.append_cons]
    exact ih hstep hcovers.2

end Follows

/-- After any transfers that both slots had the volume for each time, a ledger of some groups has their
ids in their order, and finds them where an index finds that was entered at the start; what a slot has
left and what has been moved at it come to what was declared; each side has lost all that was moved; and
leftovers without the exhausted slots are those with them, less the zeros. -/
theorem follows_transferAll (hl : ofGroups groups = .ok l) (hcovers : l.Covers table) :
    Follows groups table (l.transferAll table) ∧
    (∃ index, Index.ofGroups groups = .ok index ∧
      ∀ side id, (l.transferAll table).position side id = (index.get side)[id]?) ∧
    ∀ side,
      (l.transferAll table).size side = (groups.get side).length ∧
      (∀ id i, (l.transferAll table).position side id = some i ↔
        i < (groups.get side).length ∧ (l.transferAll table).id side i = id) ∧
      ((l.transferAll table).leftovers true).get side =
        (List.range (groups.get side).length).map ((l.transferAll table).entity side) ∧
      ((l.transferAll table).leftovers false).get side =
        (((l.transferAll table).leftovers true).get side).filter (!·.volume.isZero) := by
  have hfollows : Follows groups table (l.transferAll table) := (Follows.start hl).transferAll hcovers
  have hsize : ∀ side, (l.transferAll table).size side = (groups.get side).length := fun side => by
    rw [← length_ids, hfollows.ids side, idsOf, List.length_map]
  obtain ⟨index, hindex, hfinds⟩ := (Index.ofGroups_spec groups).2 l hl
  refine ⟨hfollows, ⟨index, hindex, fun side id => ?_⟩, fun side => ⟨hsize side, fun id i => ?_, ?_, ?_⟩⟩
  · rw [position_congr (ids_transferAll l table side)]
    exact (hfinds side).position_eq id
  · rw [position_eq_some, hsize side]
  · rw [leftovers_true, slots_eq, hsize side]
  · rw [leftovers_true, leftovers, BySide.get_map]
    rfl

/-- An id that is on both sides, and on one of them with all that a volume can hold. -/
def sampleSites : Ledger where
  slots := ⟨[⟨"site", .clamp Volume.limit⟩, ⟨"b", .zero⟩], [⟨"a", .clamp 5⟩, ⟨"site", .clamp 7⟩]⟩
  nodup side := by cases side <;> decide

/-- Transfers that use up what one slot has in two parts, and move nothing to a slot that is exhausted. -/
def sampleTransfers : List (Edge × Volume) :=
  [(⟨0, 0, 1, []⟩, .clamp 6), (⟨0, 0, 0, []⟩, .clamp 2), (⟨1, 1, 1, []⟩, .zero), (⟨0, 0, 0, []⟩, .clamp 3)]

theorem follows_transferAll_sample :
    ofGroups sampleSites.slots = .ok sampleSites ∧ sampleSites.Covers sampleTransfers ∧
    Follows sampleSites.slots sampleTransfers (sampleSites.transferAll sampleTransfers) ∧
    (sampleSites.transferAll sampleTransfers).position .demand "site" = some 0 ∧
    (sampleSites.transferAll sampleTransfers).position .supply "site" = some 1 ∧
    ((sampleSites.transferAll sampleTransfers).leftovers false).get .supply = [⟨"site", .clamp 1⟩] := by
  have hl : ofGroups sampleSites.slots = .ok sampleSites := ofGroups_eq_ok_iff.2 rfl
  have hcovers : sampleSites.Covers sampleTransfers := by decide
  obtain ⟨hfollows, -, hsides⟩ := follows_transferAll hl hcovers
  obtain ⟨-, hdemand, -⟩ := hsides .demand
  obtain ⟨-, hsupply, -, hleft⟩ := hsides .supply
  exact ⟨hl, hcovers, hfollows, (hdemand _ _).2 (by decide), (hsupply _ _).2 (by decide),
    hleft.trans (by decide)⟩

end Ledger
end FairShare
