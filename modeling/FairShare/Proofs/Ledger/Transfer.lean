import FairShare.Proofs.Edge.Flow

/-!
# Ledgers under transfers

What a ledger says of a slot is read off two lists for each side: the ids, which no transfer changes
and which have no repeats, and what the slots hold. A whole table of transfers takes from every slot
what flows along the edges at that slot (`units_remaining_transferAll`), as far as the slot has it.
-/

namespace FairShare
namespace Ledger
variable {l m : Ledger} {side : Side} {i j : Nat} {id : String}

def ids (l : Ledger) (side : Side) : List String := idsOf (l.slots.get side)

theorem nodup_ids (l : Ledger) (side : Side) : (l.ids side).Nodup := l.nodup side

theorem length_ids (l : Ledger) (side : Side) : (l.ids side).length = l.size side := by
  simp [ids, idsOf, size]

theorem getElem?_ids (l : Ledger) (side : Side) (i : Nat) :
    (l.ids side)[i]? = ((l.slots.get side)[i]?).map (·.id) := by simp [ids, idsOf]

theorem id_eq (l : Ledger) (side : Side) (i : Nat) : l.id side i = ((l.ids side)[i]?).getD "" := by
  rw [getElem?_ids, id]
  cases (l.slots.get side)[i]? <;> rfl

theorem getElem?_ids_of_lt (h : i < l.size side) : (l.ids side)[i]? = some (l.id side i) := by
  rw [id_eq, List.getElem?_eq_getElem (by rwa [length_ids])]; rfl

theorem id_inj (hi : i < l.size side) (hj : j < l.size side) :
    l.id side i = l.id side j ↔ i = j := by
  constructor
  · intro h
    refine (List.getElem?_inj (by rwa [length_ids]) (l.nodup_ids side)).1 ?_
    rw [getElem?_ids_of_lt hi, getElem?_ids_of_lt hj, h]
  · rintro rfl; rfl

theorem position_eq_findIdx? (l : Ledger) (side : Side) (id : String) :
    l.position side id = (l.ids side).findIdx? (· == id) := by
  rw [ids, idsOf, List.findIdx?_map]; rfl

theorem position_eq_some_iff : l.position side id = some i ↔ (l.ids side)[i]? = some id := by
  rw [position_eq_findIdx?, List.findIdx?_eq_some_iff_getElem]
  constructor
  · rintro ⟨hi, h, -⟩
    rw [List.getElem?_eq_getElem hi, beq_iff_eq.1 h]
  · intro h
    obtain ⟨hi, h⟩ := List.getElem?_eq_some_iff.1 h
    refine ⟨hi, beq_iff_eq.2 h, fun j hj => ?_⟩
    have hne : (l.ids side)[j] ≠ (l.ids side)[i] := fun he =>
      Nat.ne_of_lt hj ((List.getElem_inj (l.nodup_ids side)).1 he)
    simpa [← h] using hne

theorem position_eq_some : l.position side id = some i ↔ i < l.size side ∧ l.id side i = id := by
  rw [position_eq_some_iff]
  constructor
  · intro h
    obtain ⟨hi, -⟩ := List.getElem?_eq_some_iff.1 h
    exact ⟨by rwa [← length_ids], by rw [id_eq, h]; rfl⟩
  · rintro ⟨hi, rfl⟩; exact getElem?_ids_of_lt hi

theorem isSome_position_iff (l : Ledger) (side : Side) (id : String) :
    (l.position side id).isSome ↔ id ∈ l.ids side := by
  rw [position_eq_findIdx?, List.findIdx?_isSome, List.any_eq_true]
  simp

/-! ### Ledgers with the same ids -/

theorem size_congr (h : l.ids side = m.ids side) : l.size side = m.size side := by
  rw [← length_ids, ← length_ids, h]

theorem id_congr (h : l.ids side = m.ids side) (i : Nat) : l.id side i = m.id side i := by
  rw [id_eq, id_eq, h]

theorem position_congr (h : l.ids side = m.ids side) (id : String) :
    l.position side id = m.position side id := by
  rw [position_eq_findIdx?, position_eq_findIdx?, h]

/-! ### What slots hold -/

theorem remaining_eq (l : Ledger) (side : Side) (i : Nat) :
    l.remaining side i = (((l.slots.get side)[i]?).map (·.volume)).getD .zero := by
  rw [remaining]
  cases (l.slots.get side)[i]? <;> rfl

theorem isLive_iff : l.isLive side i ↔ 0 < (l.remaining side i).units := by
  simp [isLive, ← Volume.not_isZero_iff]

theorem not_isLive_iff : ¬ l.isLive side i ↔ (l.remaining side i).units = 0 := by
  rw [isLive_iff]; omega

theorem lt_size_of_isLive (h : l.isLive side i) : i < l.size side := by
  rw [isLive_iff, remaining_eq] at h
  by_cases hi : i < l.size side
  · exact hi
  · rw [List.getElem?_eq_none (by simpa [size] using hi)] at h
    simp at h

/-- What is exhausted in `before` is exhausted in `after`. -/
def DrainsTo (before after : Ledger) : Prop :=
  ∀ side i, ¬ before.isLive side i → ¬ after.isLive side i

theorem DrainsTo.refl (l : Ledger) : l.DrainsTo l := fun _ _ h => h

theorem DrainsTo.trans {before mid after : Ledger} (h : before.DrainsTo mid)
    (h' : mid.DrainsTo after) : before.DrainsTo after :=
  fun side i hi => h' side i (h side i hi)

theorem DrainsTo.isLive {before after : Ledger} (h : before.DrainsTo after)
    (hi : after.isLive side i) : before.isLive side i :=
  Classical.byContradiction fun hn => h side i hn hi

/-! ### Transfers -/

theorem slots_transfer (l : Ledger) (demand supply : Nat) (v : Volume) (side : Side) :
    (l.transfer demand supply v).slots.get side =
      (l.slots.get side).modify (BySide.get ⟨demand, supply⟩ side) (·.draw v) := by
  cases side <;> rfl

@[simp] theorem ids_transfer (l : Ledger) (demand supply : Nat) (v : Volume) (side : Side) :
    (l.transfer demand supply v).ids side = l.ids side := by
  rw [ids, ids, slots_transfer, idsOf_modify_draw]

theorem units_remaining_transfer (l : Ledger) (demand supply : Nat) (v : Volume) (side : Side)
    (i : Nat) :
    ((l.transfer demand supply v).remaining side i).units =
      (l.remaining side i).units -
        if BySide.get ⟨demand, supply⟩ side = i then v.units else 0 := by
  rw [remaining_eq, remaining_eq, slots_transfer, List.getElem?_modify]
  cases (l.slots.get side)[i]? with
  | none => simp
  | some e =>
    by_cases h : BySide.get ⟨demand, supply⟩ side = i
    · simp [h, Entity.draw]
    · simp [h]

@[simp] theorem ids_transferAll (l : Ledger) (table : List (Edge × Volume)) (side : Side) :
    (l.transferAll table).ids side = l.ids side := by
  induction table generalizing l with
  | nil => rfl
  | cons g table ih =>
    show ((l.transfer g.1.demand g.1.supply g.2).transferAll table).ids side = _
    rw [ih, ids_transfer]

/-- Every slot loses what flows along the edges at it. -/
theorem units_remaining_transferAll (l : Ledger) (table : List (Edge × Volume)) (side : Side)
    (i : Nat) :
    ((l.transferAll table).remaining side i).units =
      (l.remaining side i).units - unitsAlong (·.isAt side i) table := by
  induction table generalizing l with
  | nil => rfl
  | cons g table ih =>
    show (((l.transfer g.1.demand g.1.supply g.2).transferAll table).remaining side i).units = _
    rw [ih, units_remaining_transfer, unitsAlong_cons, Nat.sub_sub]
    simp only [Edge.isAt_iff]
    rfl

/-! ### From groups and back -/

theorem ofGroups_eq_ok_iff {groups : Groups} : ofGroups groups = .ok l ↔ l.slots = groups := by
  constructor
  · intro h
    unfold ofGroups at h
    split at h
    · cases h
    · split at h
      · cases h
      · cases h; rfl
  · rintro rfl
    have hd : firstRepeat [] (idsOf l.slots.demand) = none :=
      firstRepeat_eq_none_iff.2 ⟨l.nodup .demand, by simp⟩
    have hs : firstRepeat [] (idsOf l.slots.supply) = none :=
      firstRepeat_eq_none_iff.2 ⟨l.nodup .supply, by simp⟩
    unfold ofGroups
    split
    · next h => rw [hd] at h; cases h
    · split
      · next h => rw [hs] at h; cases h
      · rfl

end Ledger
end FairShare
