import FairShare.Proofs.Ledger.Books
import Mathlib.Data.List.Basic

/-!
# Thinned ledgers

A ledger that leaves out some entities of which nothing is left has its slots elsewhere. A `SlotMap`
says where, and `Ledger.Thins` what the two ledgers have in common: an entity that is in both holds
the same, and one that is in the large ledger only holds nothing. Transfers that agree on the common
slots keep it so (`Thins.transferAll`). The leftovers of a ledger, read as a ledger again, thin it
(`thins_retain`).
-/

namespace FairShare

/-- Where the slots of a ledger are in a thinner one. -/
abbrev SlotMap := Side → Nat → Option Nat

namespace Ledger

/-- `small` is `big` without some of the entities that hold nothing. -/
structure Thins (σ : SlotMap) (small big : Ledger) : Prop where
  inj : ∀ {side i i' j}, σ side i = some j → σ side i' = some j → i = i'
  slots : ∀ side, (List.range (big.size side)).filterMap (σ side) = List.range (small.size side)
  position : ∀ side id, small.position side id = (big.position side id).bind (σ side)
  id : ∀ {side i j}, σ side i = some j → small.id side j = big.id side i
  remaining : ∀ {side i j}, σ side i = some j → small.remaining side j = big.remaining side i
  dead : ∀ {side i}, σ side i = none → (big.remaining side i).units = 0

namespace Thins
variable {σ : SlotMap} {small big : Ledger} {side : Side} {i j : Nat}

theorem isLive_eq (h : Thins σ small big) (hi : σ side i = some j) :
    small.isLive side j = big.isLive side i := by
  rw [isLive, isLive, h.remaining hi]

theorem not_isLive (h : Thins σ small big) (hi : σ side i = none) : ¬ big.isLive side i :=
  not_isLive_iff.2 (h.dead hi)

theorem transferAll (h : Thins σ small big) {table table' : List (Edge × Volume)}
    (ht : ∀ {side i j}, σ side i = some j →
      unitsAlong (·.isAt side j) table' = unitsAlong (·.isAt side i) table) :
    Thins σ (small.transferAll table') (big.transferAll table) where
  inj := h.inj
  slots side := by
    rw [size_congr (ids_transferAll big table side), size_congr (ids_transferAll small table' side)]
    exact h.slots side
  position side id := by
    rw [position_congr (ids_transferAll big table side),
      position_congr (ids_transferAll small table' side)]
    exact h.position side id
  id {side i j} hi := by
    rw [id_congr (ids_transferAll big table side), id_congr (ids_transferAll small table' side)]
    exact h.id hi
  remaining hi := by
    apply Volume.ext
    rw [units_remaining_transferAll, units_remaining_transferAll, ht hi, h.remaining hi]
  dead hi := by
    rw [units_remaining_transferAll, h.dead hi, Nat.zero_sub]

/-- The same is left on both, if all is listed only where all is kept. -/
theorem leftovers_eq (h : Thins σ small big) {b : Bool}
    (hb : b → ∀ side, ∀ i < big.size side, (σ side i).isSome) :
    small.leftovers b = big.leftovers b := by
  have hside : ∀ side, (small.leftovers b).get side = (big.leftovers b).get side := by
    intro side
    rw [leftovers, leftovers, BySide.get_map, BySide.get_map, slots_eq small, slots_eq big,
      ← h.slots side, List.map_filterMap, ← List.filterMap_eq_map', List.filter_filterMap,
      List.filter_filterMap]
    refine List.filterMap_congr fun i hi => ?_
    have hlt := List.mem_range.1 hi
    cases hj : σ side i with
    | some j =>
      have : small.entity side j = big.entity side i := by
        rw [entity, entity, h.id hj, h.remaining hj]
      rw [Option.map_some, this]
    | none =>
      have hfalse : b = false := by
        cases b with
        | false => rfl
        | true => have := hb rfl side i hlt; rw [hj] at this; cases this
      have hz : (big.entity side i).volume.isZero := Volume.isZero_iff.2 (h.dead hj)
      simp [hfalse, hz, Option.filter]
  exact BySide.ext (hside .demand) (hside .supply)

end Thins

variable {l : Ledger} {b : Bool} {side : Side} {i j : Nat}

/-- The leftovers of a ledger as a ledger of their own. -/
def retain (l : Ledger) (b : Bool) : Ledger where
  slots := l.leftovers b
  nodup side := by
    rw [leftovers, BySide.get_map]
    exact (l.nodup side).sublist (List.filter_sublist.map _)

def slotIn (l : Ledger) (b : Bool) : SlotMap := fun side i =>
  ((l.ids side)[i]?).bind ((l.retain b).position side)

theorem slots_retain (l : Ledger) (b : Bool) (side : Side) : (l.retain b).slots.get side =
    (l.slots.get side).filter fun e => b || !e.volume.isZero := BySide.get_map ..

theorem ids_eq_map (l : Ledger) (side : Side) :
    l.ids side = (List.range (l.size side)).map (l.id side) := by
  rw [ids, slots_eq, idsOf, List.map_map]; rfl

theorem position_id (h : i < l.size side) : l.position side (l.id side i) = some i :=
  position_eq_some.2 ⟨h, rfl⟩

theorem slotIn_of_lt (h : i < l.size side) :
    l.slotIn b side i = (l.retain b).position side (l.id side i) := by
  rw [slotIn, getElem?_ids_of_lt h]; rfl

theorem slotIn_of_ge (h : l.size side ≤ i) : l.slotIn b side i = none := by
  rw [slotIn, List.getElem?_eq_none (by rwa [length_ids])]; rfl

theorem slotIn_eq_some : l.slotIn b side i = some j ↔
    i < l.size side ∧ j < (l.retain b).size side ∧
      (l.retain b).entity side j = l.entity side i := by
  by_cases hi : i < l.size side
  · rw [slotIn_of_lt hi, position_eq_some]
    simp only [hi, true_and]
    refine and_congr_right fun hj => ⟨fun hid => ?_, fun h => congrArg Entity.id h⟩
    -- both are entities of the ledger, so the id decides
    have hmem : (l.retain b).entity side j ∈ (l.retain b).slots.get side :=
      mem_slots.2 ⟨j, hj, rfl⟩
    rw [slots_retain] at hmem
    exact eq_of_id_eq (List.mem_filter.1 hmem).1 (mem_slots.2 ⟨i, hi, rfl⟩) hid
  · rw [slotIn_of_ge (Nat.le_of_not_lt hi)]
    simp [hi]

theorem isSome_slotIn_iff (h : i < l.size side) :
    (l.slotIn b side i).isSome ↔ b ∨ l.isLive side i := by
  have hmem : (l.slotIn b side i).isSome ↔ l.entity side i ∈ (l.retain b).slots.get side := by
    rw [Option.isSome_iff_exists, mem_slots]
    simp only [slotIn_eq_some, h, true_and]
  rw [hmem, slots_retain, List.mem_filter, isLive]
  have hin : l.entity side i ∈ l.slots.get side := mem_slots.2 ⟨i, h, rfl⟩
  simp only [hin, true_and]
  simp [entity]

/-- Reading its leftovers as a ledger thins a ledger. -/
theorem thins_retain (l : Ledger) (b : Bool) : Thins (l.slotIn b) (l.retain b) l where
  inj {side i i' j} hi hi' := by
    obtain ⟨hlt, -, he⟩ := slotIn_eq_some.1 hi
    obtain ⟨hlt', -, he'⟩ := slotIn_eq_some.1 hi'
    exact (id_inj hlt hlt').1 (congrArg Entity.id (he.symm.trans he'))
  slots side := by
    have hfind : ∀ m : Ledger,
        (m.ids side).filterMap (m.position side) = List.range (m.size side) := by
      intro m
      rw [ids_eq_map, List.filterMap_map]
      refine (List.filterMap_congr fun i hi => ?_).trans List.filterMap_some
      exact position_id (List.mem_range.1 hi)
    rw [← hfind (l.retain b), ids, slots_retain, idsOf, List.filterMap_map,
      List.filterMap_filter, slots_eq l, List.filterMap_map]
    refine List.filterMap_congr fun i hi => ?_
    have hlt := List.mem_range.1 hi
    rw [slotIn_of_lt hlt]
    show _ = if (b || !(l.entity side i).volume.isZero) = true
      then (l.retain b).position side (l.id side i) else none
    split
    · rfl
    · next hno =>
      rw [← slotIn_of_lt hlt, ← Option.not_isSome_iff_eq_none, isSome_slotIn_iff hlt, isLive]
      simpa [entity] using hno
  position side id := by
    cases hid : l.position side id with
    | some i =>
      obtain ⟨hi, rfl⟩ := position_eq_some.1 hid
      exact (slotIn_of_lt hi).symm
    | none =>
      have hnot : id ∉ l.ids side := by
        rw [← isSome_position_iff, hid]; simp
      have hsub : (l.retain b).ids side ⊆ l.ids side := by
        rw [ids, ids, slots_retain]
        exact List.map_subset _ List.filter_sublist.subset
      show (l.retain b).position side id = none
      rw [← Option.not_isSome_iff_eq_none, isSome_position_iff]
      exact fun h => hnot (hsub h)
  id hi := congrArg Entity.id (slotIn_eq_some.1 hi).2.2
  remaining hi := congrArg Entity.volume (slotIn_eq_some.1 hi).2.2
  dead {side i} hi := by
    by_cases hlt : i < l.size side
    · rw [← Option.not_isSome_iff_eq_none, isSome_slotIn_iff hlt, not_or] at hi
      exact not_isLive_iff.1 hi.2
    · exact not_isLive_iff.1 fun hl => hlt (lt_size_of_isLive hl)

end Ledger
end FairShare
