import FairShare.Outcome
import FairShare.Proofs.Ledger.Transfer

/-!
# Booked matches

`exchanged` is the exact number of units in the matches that name an entity. `Ledger.Books` says that
one ledger is another with a list of matches booked: every entity has what it had less what it has
exchanged, and none has exchanged more than it had. Bookings compose (`Books.trans`), an exhausted
entity stays exhausted (`Books.remaining_le`), and the leftovers of a ledger say what each entity
holds whether or not exhausted ones are listed (`leftoverFor_leftovers`).
-/

namespace FairShare

/-- The exact number of units in the matches that name an entity. -/
def exchanged (pairs : List Match) (side : Side) (id : String) : Nat :=
  unitsIn ((pairs.filter (·.entity side == id)).map (·.volume))

theorem exchanged_append (ps qs : List Match) (side : Side) (id : String) :
    exchanged (ps ++ qs) side id = exchanged ps side id + exchanged qs side id := by
  rw [exchanged, List.filter_append, List.map_append, unitsIn_append]; rfl

theorem Outcome.units_matchedFor (o : Outcome) (side : Side) (id : String) :
    (o.matchedFor side id).units = min (exchanged o.pairs side id) (Volume.limit - 1) :=
  Volume.units_total _

def Volume.less (n : Nat) (v : Volume) : Volume :=
  ⟨v.units - n, Nat.lt_of_le_of_lt (Nat.sub_le ..) v.units_lt⟩

def Entity.less (n : Nat) (e : Entity) : Entity := { e with volume := e.volume.less n }

theorem Entity.less_less (n k : Nat) (e : Entity) : (e.less n).less k = e.less (n + k) := by
  rw [Entity.ext_iff]
  exact ⟨rfl, Volume.ext (Nat.sub_sub ..)⟩

namespace Ledger
variable {l m before after : Ledger} {side : Side} {i : Nat} {pairs : List Match}

def entity (l : Ledger) (side : Side) (i : Nat) : Entity := ⟨l.id side i, l.remaining side i⟩

theorem getElem?_slots (h : i < l.size side) : (l.slots.get side)[i]? = some (l.entity side i) := by
  have hi : i < (l.slots.get side).length := h
  rw [entity, id, remaining, List.getElem?_eq_getElem hi]

theorem slots_eq (l : Ledger) (side : Side) :
    l.slots.get side = (List.range (l.size side)).map (l.entity side) := by
  refine List.ext_getElem? fun i => ?_
  by_cases h : i < l.size side
  · rw [getElem?_slots h, List.getElem?_map, List.getElem?_range h]; rfl
  · rw [List.getElem?_eq_none (Nat.le_of_not_lt h), List.getElem?_eq_none (by simpa using h)]

/-- Ids, and what every slot holds, are all there is to a ledger. -/
theorem ext_remaining (hids : ∀ side, l.ids side = m.ids side)
    (h : ∀ side i, (l.remaining side i).units = (m.remaining side i).units) : l = m := by
  have hslots : ∀ side, l.slots.get side = m.slots.get side := fun side => by
    rw [slots_eq, slots_eq, size_congr (hids side)]
    refine List.map_congr_left fun i _ => ?_
    rw [entity, entity, id_congr (hids side), Volume.ext (h side i)]
  exact ext (BySide.ext (hslots .demand) (hslots .supply))

theorem mem_slots {e : Entity} : e ∈ l.slots.get side ↔ ∃ i < l.size side, l.entity side i = e := by
  rw [slots_eq, List.mem_map]
  simp only [List.mem_range]

theorem eq_of_id_eq {e e' : Entity} (he : e ∈ l.slots.get side) (he' : e' ∈ l.slots.get side)
    (h : e.id = e'.id) : e = e' := by
  obtain ⟨i, hi, rfl⟩ := mem_slots.1 he
  obtain ⟨j, hj, rfl⟩ := mem_slots.1 he'
  rw [(id_inj hi hj).1 h]

/-- Leftovers say what an entity holds, also when it is not listed. -/
theorem leftoverFor_leftovers {e : Entity} (he : e ∈ l.slots.get side) (pairs : List Match)
    (b : Bool) : Outcome.leftoverFor ⟨pairs, l.leftovers b⟩ side e.id = e.volume := by
  unfold Outcome.leftoverFor leftovers
  rw [BySide.get_map]
  split
  · next e' hfind =>
    have hmem := (List.mem_filter.1 (List.mem_of_find?_eq_some hfind)).1
    rw [eq_of_id_eq hmem he (by simpa using List.find?_some hfind)]
  · next hnone =>
    rw [List.find?_filter, List.find?_eq_none] at hnone
    have := hnone e he
    simp only [beq_self_eq_true, and_true, Bool.decide_eq_true, Bool.not_eq_true,
      Bool.or_eq_false_iff, Bool.not_eq_false'] at this
    exact (Volume.ext (Volume.isZero_iff.1 this.2)).symm

/-- The ledger `after` is `before` with the matches booked. -/
structure Books (before : Ledger) (pairs : List Match) (after : Ledger) : Prop where
  covered : ∀ side, ∀ e ∈ before.slots.get side, exchanged pairs side e.id ≤ e.volume.units
  slots : ∀ side, after.slots.get side =
    (before.slots.get side).map fun e => e.less (exchanged pairs side e.id)

namespace Books

theorem refl (l : Ledger) : Books l [] l :=
  ⟨fun _ _ _ => Nat.zero_le _, fun _ => (List.map_id _).symm⟩

theorem trans {mid : Ledger} {qs : List Match} (h : Books before pairs mid)
    (h' : Books mid qs after) : Books before (pairs ++ qs) after where
  covered side e he := by
    have hmid : e.less (exchanged pairs side e.id) ∈ mid.slots.get side := by
      rw [h.slots side]
      exact List.mem_map_of_mem (f := fun e => e.less (exchanged pairs side e.id)) he
    have h1 := h.covered side e he
    have h2 : exchanged qs side e.id ≤ e.volume.units - exchanged pairs side e.id :=
      h'.covered side _ hmid
    rw [exchanged_append]; omega
  slots side := by
    rw [h'.slots side, h.slots side, List.map_map]
    refine List.map_congr_left fun e _ => ?_
    show (e.less _).less (exchanged qs side e.id) = _
    rw [Entity.less_less, exchanged_append]

theorem units_matchedFor (h : Books before pairs after) {e : Entity}
    (he : e ∈ before.slots.get side) (leftovers : Groups) :
    (Outcome.matchedFor ⟨pairs, leftovers⟩ side e.id).units = exchanged pairs side e.id := by
  have hcov := h.covered side e he
  have hlt := e.volume.units_lt
  rw [Outcome.units_matchedFor]
  show min (exchanged pairs side e.id) _ = _
  omega

theorem leftoverFor_eq (h : Books before pairs after) {e : Entity}
    (he : e ∈ before.slots.get side) (b : Bool) :
    Outcome.leftoverFor ⟨pairs, after.leftovers b⟩ side e.id =
      e.volume.less (exchanged pairs side e.id) := by
  refine leftoverFor_leftovers (e := e.less (exchanged pairs side e.id)) ?_ pairs b
  rw [h.slots side]
  exact List.mem_map_of_mem (f := fun e => e.less (exchanged pairs side e.id)) he

theorem ids_eq (h : Books before pairs after) (side : Side) : after.ids side = before.ids side := by
  rw [ids, ids, h.slots side, idsOf, idsOf, List.map_map]; rfl

theorem remaining_le (h : Books before pairs after) (side : Side) (i : Nat) :
    (after.remaining side i).units ≤ (before.remaining side i).units := by
  rw [remaining_eq, remaining_eq, h.slots side, List.getElem?_map]
  cases (before.slots.get side)[i]? with
  | none => exact Nat.le_refl _
  | some e => exact Nat.sub_le ..

theorem drainsTo (h : Books before pairs after) : before.DrainsTo after := fun side i hi => by
  have := h.remaining_le side i
  rw [not_isLive_iff] at hi ⊢
  omega

/-- It is enough that what every slot has left and what it has exchanged make up what it had. -/
theorem of_slots (hids : ∀ side, after.ids side = before.ids side)
    (h : ∀ side, ∀ i < before.size side,
      (after.remaining side i).units + exchanged pairs side (before.id side i) =
        (before.remaining side i).units) : Books before pairs after where
  covered side e he := by
    obtain ⟨i, hi, rfl⟩ := mem_slots.1 he
    have := h side i hi
    show exchanged pairs side (before.id side i) ≤ (before.remaining side i).units
    omega
  slots side := by
    rw [slots_eq, slots_eq, List.map_map, size_congr (hids side)]
    refine List.map_congr_left fun i hi => ?_
    have hi' := h side i (List.mem_range.1 hi)
    rw [Entity.ext_iff]
    refine ⟨id_congr (hids side) i, Volume.ext ?_⟩
    show (after.remaining side i).units =
      (before.remaining side i).units - exchanged pairs side (before.id side i)
    omega

end Books
end Ledger
end FairShare
