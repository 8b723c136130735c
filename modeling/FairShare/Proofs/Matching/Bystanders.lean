import FairShare.Proofs.Matching.Listing
import FairShare.Proofs.Tier.Independence
import FairShare.Proofs.Tier.Mirror

/-!
# Entities that no one names

`Groups.Widened`: groups to which entities are added that the forest does not name, anywhere on either
side, and whose demand may come in another order. Their ledger mirrors that of the given groups, the
forest finds the same entities in both (`Plan.Locates`), and so the same plan is carried out under
other slots. The matches are those of the given groups, and whoever is added keeps everything.
-/

namespace FairShare

/-- The ids that a forest names on a side: those of its nodes, and those of their targets. -/
def Forest.named (forest : Forest) : Side → List String
  | .demand => forest.flatten.map (·.id)
  | .supply => (forest.flatten.flatMap fun n => n.subTiers.flatten).map (·.id)

/-- The groups with others added that have new ids and are not named. The given supply keeps its
order. -/
structure Groups.Widened (forest : Forest) (groups added wide : Groups) : Prop where
  demand : wide.demand.Perm (groups.demand ++ added.demand)
  supply : Interleaves groups.supply added.supply wide.supply
  nodup : ∀ side, (idsOf (wide.get side)).Nodup
  unnamed : ∀ side, ∀ e ∈ added.get side, e.id ∉ forest.named side

namespace Groups.Widened
variable {forest : Forest} {groups added wide : Groups}

theorem perm (h : groups.Widened forest added wide) (side : Side) :
    (wide.get side).Perm (groups.get side ++ added.get side) := by
  cases side with
  | demand => exact h.demand
  | supply => exact h.supply.perm

theorem mem_iff (h : groups.Widened forest added wide) {side : Side} {e : Entity} :
    e ∈ wide.get side ↔ e ∈ groups.get side ∨ e ∈ added.get side := by
  rw [(h.perm side).mem_iff, List.mem_append]

end Groups.Widened

namespace Plan

/-- Ids that have corresponding slots in both ledgers, or in neither. -/
def Locates (ρ : Renaming) (wide narrow : Ledger) (side : Side) (ids : List String) : Prop :=
  ∀ id ∈ ids, wide.position side id = (narrow.position side id).map (ρ side)

variable {ρ : Renaming} {wide narrow : Ledger} {side : Side} {policy : Policy}

theorem slotsOf_rename {nodes : List Node} (h : Locates ρ wide narrow side (nodes.map (·.id))) :
    slotsOf wide side nodes = (slotsOf narrow side nodes).map (ρ side) := by
  rw [slotsOf, slotsOf, List.map_filterMap]
  exact List.filterMap_congr fun n hn => h n.id (List.mem_map_of_mem hn)

theorem targetsOf_rename {subTiers : List Tier}
    (h : Locates ρ wide narrow .supply (subTiers.flatten.map (·.id))) :
    targetsOf wide subTiers = (targetsOf narrow subTiers).map fun peers => peers.map (ρ .supply) := by
  have hslots : subTiers.map (slotsOf wide .supply) =
      (subTiers.map (slotsOf narrow .supply)).map fun peers => peers.map (ρ .supply) := by
    rw [List.map_map]
    refine List.map_congr_left fun sub hs => slotsOf_rename fun id hid => h id ?_
    obtain ⟨t, ht, rfl⟩ := List.mem_map.1 hid
    exact List.mem_map_of_mem (List.mem_flatten_of_mem hs ht)
  rw [targetsOf, targetsOf, hslots, List.filter_map]
  refine congrArg _ (List.filter_congr fun peers _ => ?_)
  simp

theorem Peerable.rename {nodes : List Node} (hinj : Function.Injective (ρ side))
    (hl : Locates ρ wide narrow side (nodes.map (·.id))) (hp : Peerable narrow policy side nodes) :
    Peerable wide policy side nodes where
  known hs n hn := by
    rw [hl n.id (List.mem_map_of_mem hn), Option.isSome_map]
    exact hp.known hs n hn
  nodup := by
    rw [slotsOf_rename hl]
    exact hp.nodup.map hinj

section
variable {forest : Forest} (h : ∀ side, Locates ρ wide narrow side (forest.named side))
include h

theorem locates_tier {tier : Tier} (ht : tier ∈ forest) :
    Locates ρ wide narrow .demand (tier.map (·.id)) := fun id hid => by
  obtain ⟨n, hn, rfl⟩ := List.mem_map.1 hid
  exact h .demand n.id (List.mem_map_of_mem (List.mem_flatten_of_mem ht hn))

theorem locates_targets {tier : Tier} (ht : tier ∈ forest) {n : Node} (hn : n ∈ tier) :
    Locates ρ wide narrow .supply (n.subTiers.flatten.map (·.id)) := fun id hid => by
  obtain ⟨t, htarget, rfl⟩ := List.mem_map.1 hid
  refine h .supply t.id (List.mem_map_of_mem (List.mem_flatMap.2 ⟨n, ?_, htarget⟩))
  exact List.mem_flatten_of_mem ht hn

/-- The plan is the same, under the slots that the wide ledger has. -/
theorem ofForest_rename : ofForest wide forest = (ofForest narrow forest).map (TierPlan.rename ρ) := by
  rw [ofForest, ofForest, List.map_map]
  refine List.map_congr_left fun tier ht => ?_
  rw [Function.comp_apply, tierOf, tierOf, TierPlan.rename, List.map_filterMap]
  refine List.filterMap_congr fun n hn => ?_
  rw [locates_tier h ht n.id (List.mem_map_of_mem hn), targetsOf_rename (locates_targets h ht hn),
    Option.map_map, Option.map_map]
  rfl

theorem Admits.rename (hinj : ∀ side, Function.Injective (ρ side))
    (ha : Admits narrow policy forest) : Admits wide policy forest := by
  intro tier ht
  obtain ⟨hp, hsub⟩ := ha tier ht
  have hlocates := locates_tier h ht
  refine ⟨hp.rename (hinj .demand) hlocates, fun n hn hid sub hs => ?_⟩
  rw [hlocates n.id (List.mem_map_of_mem hn), Option.isSome_map] at hid
  obtain ⟨hleaf, hpeers⟩ := hsub n hn hid sub hs
  refine ⟨hleaf, hpeers.rename (hinj .supply) fun id hid => locates_targets h ht hn id ?_⟩
  obtain ⟨t, htarget, rfl⟩ := List.mem_map.1 hid
  exact List.mem_map_of_mem (List.mem_flatten_of_mem hs htarget)

end

theorem pairsOf_rename {plan : Plan} (hfits : ∀ tier ∈ plan, TierPlan.Fits tier narrow)
    (h : wide.Mirrors ρ narrow) : pairsOf wide (plan.map (TierPlan.rename ρ)) = pairsOf narrow plan := by
  induction plan generalizing wide narrow with
  | nil => rfl
  | cons tier plan ih =>
    obtain ⟨htier, hplan⟩ := List.forall_mem_cons.1 hfits
    obtain ⟨hpairs, hledger⟩ := TierPlan.resolve_rename htier h
    rw [List.map_cons, pairsOf_cons, pairsOf_cons, hpairs,
      ih (fun t ht => (hplan t ht).resolve htier) hledger]

end Plan

/-! ### The ledgers of both groups -/

namespace Groups.Widened
variable {forest : Forest} {added : Groups} {wide narrow : Ledger}

theorem mirrors (h : Groups.Widened forest narrow.slots added wide.slots) :
    wide.Mirrors (wide.slotsIn narrow) narrow :=
  Ledger.mirrors_slotsIn (fun _ _ he => h.mem_iff.2 (.inl he)) (h.supply.sublist.map _)

theorem locates (h : Groups.Widened forest narrow.slots added wide.slots) (side : Side) :
    Plan.Locates (wide.slotsIn narrow) wide narrow side (forest.named side) := by
  intro id hid
  cases hi : narrow.position side id with
  | some i => exact h.mirrors.position hi
  | none =>
    rw [Option.map_none, ← Option.not_isSome_iff_eq_none, Ledger.isSome_position_iff]
    intro hmem
    obtain ⟨e, he, rfl⟩ := List.mem_map.1 hmem
    rcases h.mem_iff.1 he with he | he
    · have hsome := (narrow.isSome_position_iff side e.id).2 (List.mem_map_of_mem he)
      rw [hi] at hsome
      cases hsome
    · exact h.unnamed side e he hid

/-- Who is added has none of the given ids. -/
theorem id_ne (h : Groups.Widened forest narrow.slots added wide.slots) {side : Side} {e : Entity}
    (he : e ∈ added.get side) {i : Nat} (hi : i < narrow.size side) : narrow.id side i ≠ e.id := by
  have hperm : (wide.slots.get side).Perm (narrow.slots.get side ++ added.get side) := h.perm side
  have hnodup : (idsOf (narrow.slots.get side ++ added.get side)).Nodup :=
    (hperm.map _).nodup_iff.1 (h.nodup side)
  rw [idsOf, List.map_append] at hnodup
  exact (List.nodup_append.1 hnodup).2.2 _
    (List.mem_map_of_mem (Ledger.mem_slots.2 ⟨i, hi, rfl⟩)) _ (List.mem_map_of_mem he)

end Groups.Widened

theorem exchanged_eq_zero {pairs : List Match} {side : Side} {id : String}
    (h : ∀ p ∈ pairs, p.entity side ≠ id) : exchanged pairs side id = 0 := by
  rw [exchanged, List.filter_eq_nil_iff.2 fun p hp => by simpa using h p hp]
  rfl

/-- Neither the order of the demand nor entities that no one names change what is matched, or what
is left of anybody. Whoever is added keeps everything. -/
theorem matchGroups_widened {config : Config} {forest : Forest} {groups added wide : Groups}
    {o : Outcome} (h : matchGroups config forest groups = .ok o)
    (hw : groups.Widened forest added wide) :
    ∃ o', matchGroups config forest wide = .ok o' ∧ o'.pairs = o.pairs ∧
      ∀ side, (∀ e ∈ groups.get side, o'.leftoverFor side e.id = o.leftoverFor side e.id) ∧
        ∀ e ∈ added.get side, o'.leftoverFor side e.id = e.volume := by
  obtain ⟨narrow, rfl, ha, rfl⟩ := matchGroups_eq_ok_iff.1 h
  obtain ⟨wide, rfl⟩ : ∃ l : Ledger, l.slots = wide := ⟨⟨wide, hw.nodup⟩, rfl⟩
  have hfits := Plan.fits_of_mem ha
  have ha' := ha.rename hw.locates hw.mirrors.injective
  have hpairs : Plan.pairsOf wide (Plan.ofForest wide forest) =
      Plan.pairsOf narrow (Plan.ofForest narrow forest) := by
    rw [Plan.ofForest_rename hw.locates, Plan.pairsOf_rename hfits hw.mirrors]
  have hb := Plan.books_ledgerAfter hfits
  have hb' := Plan.books_ledgerAfter (Plan.fits_of_mem ha')
  refine ⟨_, matchGroups_eq_ok_iff.2 ⟨wide, rfl, ha', rfl⟩, hpairs, fun side => ⟨?_, ?_⟩⟩
  · intro e he
    rw [Plan.settle_eq, Plan.settle_eq, hb.leftoverFor_eq he,
      hb'.leftoverFor_eq (hw.mem_iff.2 (.inl he)), hpairs]
  · intro e he
    rw [Plan.settle_eq, hb'.leftoverFor_eq (hw.mem_iff.2 (.inr he)), hpairs,
      exchanged_eq_zero]
    · rfl
    · intro p hp
      obtain ⟨i, hi, hid⟩ := (Plan.exists_slot_of_mem_pairsOf hfits hp).2 side
      rw [hid]
      exact hw.id_ne he hi

/-- Newcomers before and between the given entities, whose demand comes in reverse. An id that the
forest names on the other side only is not named on this one. -/
def sampleAdded : Groups :=
  ⟨[⟨"x", .clamp 6⟩, ⟨"d", .clamp 1⟩], [⟨"a", .clamp 8⟩, ⟨"w", .clamp 0⟩]⟩

def sampleWide : Groups :=
  ⟨[⟨"x", .clamp 6⟩, ⟨"c", .clamp Volume.limit⟩, ⟨"b", .clamp 5⟩, ⟨"d", .clamp 1⟩, ⟨"a", .clamp 9⟩],
    [⟨"a", .clamp 8⟩, ⟨"x", .clamp 7⟩, ⟨"y", .clamp 4⟩, ⟨"w", .clamp 0⟩, ⟨"z", .clamp 3⟩]⟩

theorem widened_sample : sampleGroups.Widened sampleForest sampleAdded sampleWide where
  demand := by decide
  supply := .right (.left (.left (.right (.left .nil))))
  nodup side := by cases side <;> decide
  unnamed side := by cases side <;> decide

theorem matchGroups_widened_sample :
    matchGroups .standard sampleForest sampleGroups = .ok sampleOutcome ∧
      sampleGroups.Widened sampleForest sampleAdded sampleWide ∧
      ∃ o, matchGroups .standard sampleForest sampleWide = .ok o ∧ o.pairs = sampleOutcome.pairs ∧
        ∀ side, (∀ e ∈ sampleGroups.get side,
            o.leftoverFor side e.id = sampleOutcome.leftoverFor side e.id) ∧
          ∀ e ∈ sampleAdded.get side, o.leftoverFor side e.id = e.volume :=
  ⟨matchGroups_sample .strict, widened_sample,
    matchGroups_widened (matchGroups_sample .strict) widened_sample⟩

end FairShare
