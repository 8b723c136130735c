import FairShare.Proofs.Ledger.Books
import Mathlib.Order.Monotone.Basic

/-!
# Mirrored ledgers

A wide ledger mirrors a narrow one if it has an entity for each of the narrow one, with the same id
and holding the same, and maybe more of them. A `Renaming` says which slot is which. Demand slots may
come in any order, supply slots have to keep theirs, because in a tier the supply is settled slot by
slot. So a ledger that has all entities of another mirrors it (`mirrors_slotsIn`).
-/

namespace FairShare

/-- What the slots of one ledger are in another. -/
abbrev Renaming := Side → Nat → Nat

namespace Ledger

/-- A slot that is none in `narrow` is none in `wide`, so that nothing depends on which slots are. -/
structure Mirrors (ρ : Renaming) (wide narrow : Ledger) : Prop where
  injective : ∀ side, Function.Injective (ρ side)
  strictMono : StrictMono (ρ .supply)
  lt_size : ∀ {side i}, i < narrow.size side → ρ side i < wide.size side
  id : ∀ side i, wide.id side (ρ side i) = narrow.id side i
  remaining : ∀ side i, wide.remaining side (ρ side i) = narrow.remaining side i

section
variable {ρ : Renaming} {wide narrow : Ledger} {side : Side} {i : Nat}

theorem Mirrors.isLive_eq (h : wide.Mirrors ρ narrow) (side : Side) (i : Nat) :
    wide.isLive side (ρ side i) = narrow.isLive side i := by
  rw [isLive, isLive, h.remaining]

theorem Mirrors.position (h : wide.Mirrors ρ narrow) {id : String}
    (hi : narrow.position side id = some i) : wide.position side id = some (ρ side i) := by
  obtain ⟨hlt, rfl⟩ := position_eq_some.1 hi
  exact position_eq_some.2 ⟨h.lt_size hlt, h.id side i⟩

end

/-! ### Ledgers with further entities -/

/-- The slots that the entities of `narrow` have in `wide`. -/
def slotsIn (wide narrow : Ledger) : Renaming := fun side i =>
  (((narrow.ids side)[i]?).bind (wide.position side)).getD (wide.size side + i)

variable {wide narrow : Ledger} {side : Side} {i j : Nat}

theorem slotsIn_of_ge (h : narrow.size side ≤ i) :
    wide.slotsIn narrow side i = wide.size side + i := by
  rw [slotsIn, List.getElem?_eq_none (by rwa [length_ids])]
  rfl

theorem id_of_ge (l : Ledger) (h : l.size side ≤ i) : l.id side i = "" := by
  rw [id_eq, List.getElem?_eq_none (by rwa [length_ids])]
  rfl

theorem remaining_of_ge (l : Ledger) (h : l.size side ≤ i) : l.remaining side i = .zero := by
  rw [remaining_eq, List.getElem?_eq_none h]
  rfl

theorem pairwise_position (l : Ledger) (side : Side) : (l.ids side).Pairwise fun id id' =>
    ∀ i j, l.position side id = some i → l.position side id' = some j → i < j := by
  refine List.pairwise_iff_getElem.2 fun k k' hk hk' hlt i j hi hj => ?_
  have hslot : ∀ {n m : Nat} (hn : n < (l.ids side).length),
      l.position side (l.ids side)[n] = some m → m = n := fun hn hm =>
    Option.some.inj (hm.symm.trans (position_eq_some_iff.2 (List.getElem?_eq_getElem hn)))
  rw [hslot hk hi, hslot hk' hj]
  exact hlt

section
variable (hsub : ∀ side, narrow.slots.get side ⊆ wide.slots.get side)
include hsub

theorem entity_slotsIn (h : i < narrow.size side) : wide.slotsIn narrow side i < wide.size side ∧
    wide.entity side (wide.slotsIn narrow side i) = narrow.entity side i := by
  obtain ⟨j, hj, he⟩ := mem_slots.1 (hsub side (mem_slots.2 ⟨i, h, rfl⟩))
  have hpos : wide.position side (narrow.id side i) = some j :=
    position_eq_some.2 ⟨hj, congrArg Entity.id he⟩
  have hslot : wide.slotsIn narrow side i = j := by
    rw [slotsIn, getElem?_ids_of_lt h, Option.bind_some, hpos, Option.getD_some]
  rw [hslot]
  exact ⟨hj, he⟩

theorem position_slotsIn (h : i < narrow.size side) :
    wide.position side (narrow.id side i) = some (wide.slotsIn narrow side i) := by
  obtain ⟨hlt, he⟩ := entity_slotsIn hsub h
  exact position_eq_some.2 ⟨hlt, congrArg Entity.id he⟩

theorem slotsIn_injective (side : Side) : Function.Injective (wide.slotsIn narrow side) := by
  intro i j hij
  by_cases hi : i < narrow.size side <;> by_cases hj : j < narrow.size side
  · have he := (entity_slotsIn hsub hi).2
    rw [hij, (entity_slotsIn hsub hj).2] at he
    exact ((id_inj hj hi).1 (congrArg Entity.id he)).symm
  · have hlt := (entity_slotsIn hsub hi).1
    rw [hij, slotsIn_of_ge (Nat.le_of_not_lt hj)] at hlt
    omega
  · have hlt := (entity_slotsIn hsub hj).1
    rw [← hij, slotsIn_of_ge (Nat.le_of_not_lt hi)] at hlt
    omega
  · rw [slotsIn_of_ge (Nat.le_of_not_lt hi), slotsIn_of_ge (Nat.le_of_not_lt hj)] at hij
    omega

theorem slotsIn_strictMono (hids : (narrow.ids side).Sublist (wide.ids side)) :
    StrictMono (wide.slotsIn narrow side) := by
  intro i j hij
  by_cases hj : j < narrow.size side
  · have hi : i < narrow.size side := Nat.lt_trans hij hj
    have hget : ∀ {n : Nat} (hn : n < (narrow.ids side).length),
        (narrow.ids side)[n] = narrow.id side n := fun hn =>
      Option.some.inj ((List.getElem?_eq_getElem hn).symm.trans
        (getElem?_ids_of_lt (by rwa [length_ids] at hn)))
    have horder := List.pairwise_iff_getElem.1 ((pairwise_position wide side).sublist hids) i j
      (by rwa [length_ids]) (by rwa [length_ids]) hij
    rw [hget, hget] at horder
    exact horder _ _ (position_slotsIn hsub hi) (position_slotsIn hsub hj)
  · rw [slotsIn_of_ge (Nat.le_of_not_lt hj)]
    by_cases hi : i < narrow.size side
    · have := (entity_slotsIn hsub hi).1
      omega
    · rw [slotsIn_of_ge (Nat.le_of_not_lt hi)]
      omega

/-- A ledger with all entities of another, the supply among them in the same order, mirrors it. -/
theorem mirrors_slotsIn (hids : (narrow.ids .supply).Sublist (wide.ids .supply)) :
    wide.Mirrors (wide.slotsIn narrow) narrow where
  injective := slotsIn_injective hsub
  strictMono := slotsIn_strictMono hsub hids
  lt_size h := (entity_slotsIn hsub h).1
  id side i := by
    by_cases hi : i < narrow.size side
    · exact congrArg Entity.id (entity_slotsIn hsub hi).2
    · have hge := Nat.le_of_not_lt hi
      rw [slotsIn_of_ge hge, id_of_ge narrow hge, id_of_ge wide (Nat.le_add_right ..)]
  remaining side i := by
    by_cases hi : i < narrow.size side
    · exact congrArg Entity.volume (entity_slotsIn hsub hi).2
    · have hge := Nat.le_of_not_lt hi
      rw [slotsIn_of_ge hge, remaining_of_ge narrow hge, remaining_of_ge wide (Nat.le_add_right ..)]

end
end Ledger
end FairShare
