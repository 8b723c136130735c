import FairShare.Fault

/-!
# Ledgers

A `Ledger` holds, for each entity of the two groups, the volume that it has not exchanged yet. Its
slots keep the order of the groups, and no id has two slots on a side. The only thing that happens
to a ledger is a `transfer`, which lowers one slot on each side and changes no id; `supplyLeft`, the
supply that is still there, never rises and falls whenever something is taken from a live slot.
-/

namespace FairShare

/-- The first element that has been seen before. -/
def firstRepeat {α : Type} [DecidableEq α] (seen : List α) : List α → Option α
  | [] => none
  | a :: as => if a ∈ seen then some a else firstRepeat (a :: seen) as

theorem firstRepeat_eq_none_iff {α : Type} [DecidableEq α] {seen as : List α} :
    firstRepeat seen as = none ↔ as.Nodup ∧ ∀ a ∈ as, a ∉ seen := by
  induction as generalizing seen with
  | nil => simp [firstRepeat]
  | cons a as ih =>
    unfold firstRepeat
    split
    · next h => simp [h]
    · next h =>
      rw [ih, List.nodup_cons]
      constructor
      · rintro ⟨hn, hs⟩
        refine ⟨⟨fun ha => hs a ha (by simp), hn⟩, fun b hb => ?_⟩
        rcases List.mem_cons.1 hb with rfl | hb
        · exact h
        · exact fun hbs => hs b hb (List.mem_cons_of_mem _ hbs)
      · rintro ⟨⟨ha, hn⟩, hs⟩
        refine ⟨hn, fun b hb hbs => ?_⟩
        rcases List.mem_cons.1 hbs with rfl | hbs
        · exact ha hb
        · exact hs b (List.mem_cons_of_mem _ hb) hbs

theorem nodup_of_firstRepeat {α : Type} [DecidableEq α] {as : List α}
    (h : firstRepeat [] as = none) : as.Nodup := (firstRepeat_eq_none_iff.1 h).1

def idsOf (es : List Entity) : List String := es.map (·.id)

def volumesOf (es : List Entity) : List Volume := es.map (·.volume)

structure Ledger where
  slots : Groups
  nodup : ∀ side, (idsOf (slots.get side)).Nodup

/-- The entity after giving or getting `v`. -/
def Entity.draw (v : Volume) (e : Entity) : Entity := { e with volume := e.volume.subSat v }

theorem Entity.draw_zero (e : Entity) : e.draw .zero = e := rfl

theorem idsOf_modify_draw (es : List Entity) (i : Nat) (v : Volume) :
    idsOf (es.modify i (·.draw v)) = idsOf es := by
  induction es generalizing i with
  | nil => cases i <;> rfl
  | cons e es ih => cases i <;> simp_all [idsOf, Entity.draw]

namespace Ledger

theorem ext {l m : Ledger} (h : l.slots = m.slots) : l = m := by
  cases l; cases m; cases h; rfl

/-- A ledger in which everybody holds what they declare, unless an id is repeated. -/
def ofGroups (groups : Groups) : Except Fault Ledger :=
  match hd : firstRepeat [] (idsOf groups.demand) with
  | some id => .error (.duplicateEntity .demand id)
  | none =>
    match hs : firstRepeat [] (idsOf groups.supply) with
    | some id => .error (.duplicateEntity .supply id)
    | none => .ok ⟨groups, fun
      | .demand => nodup_of_firstRepeat hd
      | .supply => nodup_of_firstRepeat hs⟩

def size (l : Ledger) (side : Side) : Nat := (l.slots.get side).length

/-- The slot of an id. -/
def position (l : Ledger) (side : Side) (id : String) : Option Nat :=
  (l.slots.get side).findIdx? (·.id == id)

/-- What a slot still holds; nothing where there is no slot. -/
def remaining (l : Ledger) (side : Side) (pos : Nat) : Volume :=
  match (l.slots.get side)[pos]? with
  | some e => e.volume
  | none => .zero

def id (l : Ledger) (side : Side) (pos : Nat) : String :=
  match (l.slots.get side)[pos]? with
  | some e => e.id
  | none => ""

/-- Whether a slot still holds anything. -/
def isLive (l : Ledger) (side : Side) (pos : Nat) : Bool := !(l.remaining side pos).isZero

/-- Moves a volume from a supply slot to a demand slot. -/
def transfer (l : Ledger) (demand supply : Nat) (v : Volume) : Ledger where
  slots := ⟨l.slots.demand.modify demand (·.draw v), l.slots.supply.modify supply (·.draw v)⟩
  nodup
    | .demand => by simpa only [BySide.get, idsOf_modify_draw] using l.nodup .demand
    | .supply => by simpa only [BySide.get, idsOf_modify_draw] using l.nodup .supply

/-- What every slot holds, without the exhausted ones unless they are asked for. -/
def leftovers (l : Ledger) (includeExhausted : Bool) : Groups :=
  l.slots.map fun es => es.filter fun e => includeExhausted || !e.volume.isZero

/-- The units that the supply side still holds. -/
def supplyLeft (l : Ledger) : Nat := unitsIn (volumesOf l.slots.supply)

theorem modify_draw_zero (es : List Entity) (i : Nat) : es.modify i (·.draw .zero) = es := by
  induction es generalizing i with
  | nil => cases i <;> rfl
  | cons e es ih => cases i <;> simp_all [Entity.draw_zero]

theorem transfer_zero (l : Ledger) (demand supply : Nat) : l.transfer demand supply .zero = l := by
  apply ext; simp [transfer, modify_draw_zero]

theorem units_modify_draw_le (es : List Entity) (i : Nat) (v : Volume) :
    unitsIn (volumesOf (es.modify i (·.draw v))) ≤ unitsIn (volumesOf es) := by
  induction es generalizing i with
  | nil => cases i <;> simp [volumesOf]
  | cons e es ih =>
    cases i with
    | zero => simp [volumesOf, unitsIn, Entity.draw]
    | succ i => simpa [volumesOf, unitsIn] using ih i

theorem units_modify_draw_lt {es : List Entity} {i : Nat} {v : Volume} {e : Entity}
    (hi : es[i]? = some e) (he : 0 < e.volume.units) (hv : 0 < v.units) :
    unitsIn (volumesOf (es.modify i (·.draw v))) < unitsIn (volumesOf es) := by
  induction es generalizing i with
  | nil => simp at hi
  | cons a es ih =>
    cases i with
    | zero =>
      obtain rfl : a = e := by simpa using hi
      simp [volumesOf, unitsIn, Entity.draw]; omega
    | succ i => simpa [volumesOf, unitsIn] using ih (i := i) (by simpa using hi)

theorem supplyLeft_transfer_le (l : Ledger) (demand supply : Nat) (v : Volume) :
    (l.transfer demand supply v).supplyLeft ≤ l.supplyLeft := units_modify_draw_le ..

theorem supplyLeft_transfer_lt {l : Ledger} {demand supply : Nat} {v : Volume}
    (hs : l.isLive .supply supply) (hv : 0 < v.units) :
    (l.transfer demand supply v).supplyLeft < l.supplyLeft := by
  unfold isLive remaining at hs
  split at hs
  · next e he =>
    exact units_modify_draw_lt he (Volume.not_isZero_iff.1 (by simpa using hs)) hv
  · simp [Volume.isZero] at hs

end Ledger
end FairShare
