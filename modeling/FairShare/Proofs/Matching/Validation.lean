import FairShare.Proofs.Matching.Run
import FairShare.Proofs.Plan.Violations
import Mathlib.Data.List.Nodup

/-!
# What is matched and what is refused

`Matchable` says on the ids alone which groups and forests can be matched: no id twice in a group or,
as far as it is known, among peers; only leaves under a known demand node; and nothing unknown under
the strict policy. Exactly these are matched. All others are refused with the first of their faults,
those of the groups before those of the forest. The plan that is carried out is the forest itself
without what is unknown, each slot in it being that of the id it stands for
(`matchGroups_validates`).
-/

namespace FairShare

/-- The ids of those nodes that a group knows. -/
def Groups.knownIds (groups : Groups) (side : Side) (nodes : List Node) : List String :=
  (nodes.filter fun n => groups.knows side n.id).map (·.id)

/-- Groups and a forest between which nothing is wrong. -/
structure Matchable (policy : Policy) (groups : Groups) (forest : Forest) : Prop where
  ids : ∀ side, (idsOf (groups.get side)).Nodup
  demand : ∀ tier ∈ forest, (groups.knownIds .demand tier).Nodup
  leaves : ∀ tier ∈ forest, ∀ n ∈ tier, groups.knows .demand n.id →
    ∀ sub ∈ n.subTiers, ∀ t ∈ sub, t.isLeaf
  supply : ∀ tier ∈ forest, ∀ n ∈ tier, groups.knows .demand n.id →
    ∀ sub ∈ n.subTiers, (groups.knownIds .supply sub).Nodup
  demand_known : policy = .strict → ∀ tier ∈ forest, ∀ n ∈ tier, groups.knows .demand n.id
  supply_known : policy = .strict → ∀ tier ∈ forest, ∀ n ∈ tier, groups.knows .demand n.id →
    ∀ sub ∈ n.subTiers, ∀ t ∈ sub, groups.knows .supply t.id

/-- What may be refused in groups and a forest: repeated demand, repeated supply, then the forest. -/
def allFaults (policy : Policy) (groups : Groups) (forest : Forest) : List Fault :=
  groups.repeats .demand ++ (groups.repeats .supply ++ forest.faults groups policy)

/-- The ids of a member and of what it wants, sub-tier by sub-tier. -/
def Member.names (l : Ledger) (m : Member) : String × List (List String) :=
  (l.id .demand m.demand, m.targets.map fun peers => peers.map (l.id .supply))

/-- The ids of a node and of what it wants, as far as they are known. -/
def Node.known (groups : Groups) (n : Node) : String × List (List String) :=
  (n.id, (n.subTiers.map (groups.knownIds .supply)).filter fun ids => !ids.isEmpty)

namespace Plan
variable {l : Ledger} {policy : Policy}

theorem knownIds_cons_none {side : Side} {n : Node} (hn : l.position side n.id = none)
    (nodes : List Node) :
    Groups.knownIds l.slots side (n :: nodes) = Groups.knownIds l.slots side nodes := by
  have hknown : ¬ Groups.knows l.slots side n.id := by simp [Ledger.knows_eq_false_iff.2 hn]
  rw [Groups.knownIds, List.filter_cons, if_neg hknown]
  rfl

theorem knownIds_cons_some {side : Side} {n : Node} {i : Nat} (hn : l.position side n.id = some i)
    (nodes : List Node) :
    Groups.knownIds l.slots side (n :: nodes) = n.id :: Groups.knownIds l.slots side nodes := by
  have hknown : Groups.knows l.slots side n.id := Ledger.knows_iff.2 (by rw [hn]; rfl)
  rw [Groups.knownIds, List.filter_cons, if_pos hknown]
  rfl

theorem map_id_slotsOf (l : Ledger) (side : Side) (nodes : List Node) :
    (slotsOf l side nodes).map (l.id side) = Groups.knownIds l.slots side nodes := by
  induction nodes with
  | nil => rfl
  | cons n nodes ih =>
    cases hn : l.position side n.id with
    | none =>
      have hslots : slotsOf l side (n :: nodes) = slotsOf l side nodes :=
        List.filterMap_cons_none hn
      rw [hslots, knownIds_cons_none hn, ih]
    | some i =>
      have hslots : slotsOf l side (n :: nodes) = i :: slotsOf l side nodes :=
        List.filterMap_cons_some hn
      rw [hslots, knownIds_cons_some hn, List.map_cons, ih, (Ledger.position_eq_some.1 hn).2]

/-- Known ids are as distinct as their slots. -/
theorem nodup_slotsOf_iff {side : Side} {nodes : List Node} :
    (slotsOf l side nodes).Nodup ↔ (Groups.knownIds l.slots side nodes).Nodup := by
  rw [← map_id_slotsOf]
  constructor
  · intro h
    refine h.map_on fun i hi j hj hij => ?_
    exact (Ledger.id_inj (lt_size_of_mem_slotsOf hi) (lt_size_of_mem_slotsOf hj)).1 hij
  · exact List.Nodup.of_map _

theorem peerable_iff {side : Side} {nodes : List Node} : Peerable l policy side nodes ↔
    (policy = .strict → ∀ n ∈ nodes, Groups.knows l.slots side n.id) ∧
      (Groups.knownIds l.slots side nodes).Nodup := by
  simp only [Ledger.knows_iff, ← nodup_slotsOf_iff]
  exact ⟨fun h => ⟨h.known, h.nodup⟩, fun h => ⟨h.1, h.2⟩⟩

theorem admits_iff {forest : Forest} :
    Admits l policy forest ↔ Matchable policy l.slots forest := by
  simp only [Admits, peerable_iff, ← Ledger.knows_iff]
  constructor
  · intro h
    exact ⟨l.nodup, fun tier ht => (h tier ht).1.2,
      fun tier ht n hn hk sub hs => ((h tier ht).2 n hn hk sub hs).1,
      fun tier ht n hn hk sub hs => ((h tier ht).2 n hn hk sub hs).2.2,
      fun hp tier ht => (h tier ht).1.1 hp,
      fun hp tier ht n hn hk sub hs => ((h tier ht).2 n hn hk sub hs).2.1 hp⟩
  · intro h tier ht
    refine ⟨⟨fun hp => h.demand_known hp tier ht, h.demand tier ht⟩, fun n hn hk sub hs => ?_⟩
    exact ⟨h.leaves tier ht n hn hk sub hs, fun hp => h.supply_known hp tier ht n hn hk sub hs,
      h.supply tier ht n hn hk sub hs⟩

/-! ### The plan in ids -/

theorem map_names_targetsOf (l : Ledger) (subTiers : List Tier) :
    (targetsOf l subTiers).map (fun peers => peers.map (l.id .supply)) =
      (subTiers.map (Groups.knownIds l.slots .supply)).filter fun ids => !ids.isEmpty := by
  have hids : subTiers.map (Groups.knownIds l.slots .supply) =
      (subTiers.map (slotsOf l .supply)).map fun peers => peers.map (l.id .supply) := by
    rw [List.map_map]
    exact List.map_congr_left fun sub _ => (map_id_slotsOf l .supply sub).symm
  rw [hids, List.filter_map, targetsOf]
  congr 1
  refine List.filter_congr fun peers _ => ?_
  simp

theorem map_names_tierOf (l : Ledger) (tier : Tier) : (tierOf l tier).map (Member.names l) =
    (tier.filter fun n => Groups.knows l.slots .demand n.id).map (Node.known l.slots) := by
  induction tier with
  | nil => rfl
  | cons n tier ih =>
    rw [List.filter_cons]
    cases hn : l.position .demand n.id with
    | none =>
      have htier : tierOf l (n :: tier) = tierOf l tier :=
        List.filterMap_cons_none (by rw [hn]; rfl)
      rw [htier, Ledger.knows_eq_false_iff.2 hn, ih]
      rfl
    | some i =>
      have htier : tierOf l (n :: tier) = ⟨i, targetsOf l n.subTiers⟩ :: tierOf l tier :=
        List.filterMap_cons_some (by rw [hn]; rfl)
      have hknown : Groups.knows l.slots .demand n.id := Ledger.knows_iff.2 (by rw [hn]; rfl)
      have hnames : Member.names l ⟨i, targetsOf l n.subTiers⟩ = Node.known l.slots n := by
        rw [Member.names, map_names_targetsOf, (Ledger.position_eq_some.1 hn).2, Node.known]
      rw [htier, if_pos hknown, List.map_cons, List.map_cons, ih, hnames]

theorem map_names_ofForest (l : Ledger) (forest : Forest) :
    (ofForest l forest).map (fun tier => tier.map (Member.names l)) = forest.map fun tier =>
      (tier.filter fun n => Groups.knows l.slots .demand n.id).map (Node.known l.slots) := by
  rw [ofForest, List.map_map]
  exact List.map_congr_left fun tier _ => map_names_tierOf l tier

end Plan

/-- Groups and a forest are refused for their first fault. -/
theorem faultOf_matchGroups (config : Config) (forest : Forest) (groups : Groups) :
    faultOf (matchGroups config forest groups) =
      (allFaults config.references groups forest).head? := by
  have hbind : matchGroups config forest groups = (Ledger.ofGroups groups).bind fun l =>
    (Plan.resolve l config.references forest).bind fun plan => .ok (plan.settle config l) := rfl
  rw [hbind, allFaults, ← List.append_assoc]
  refine faultOf_bind (Ledger.faultOf_ofGroups groups) fun l hl => ?_
  obtain rfl := Ledger.ofGroups_eq_ok_iff.1 hl
  exact faultOf_bind_ok (Plan.faultOf_resolve l config.references forest)

/-- Matching succeeds exactly where nothing is wrong, and otherwise ends in the first fault. What it
carries out is the forest without what is unknown, all of whose slots are those of its ids. -/
theorem matchGroups_validates (config : Config) (forest : Forest) (groups : Groups) :
    ((∃ o, matchGroups config forest groups = .ok o) ↔
      Matchable config.references groups forest) ∧
    (∀ e, matchGroups config forest groups = .error e ↔
      (allFaults config.references groups forest).head? = some e) ∧
    ∀ o, matchGroups config forest groups = .ok o → ∃ l plan, Ledger.ofGroups groups = .ok l ∧
      Plan.resolve l config.references forest = .ok plan ∧ o = plan.settle config l ∧
      (∀ tier ∈ plan, TierPlan.Fits tier l) ∧
      plan.map (fun tier => tier.map (Member.names l)) = forest.map fun tier =>
        (tier.filter fun n => groups.knows .demand n.id).map (Node.known groups) := by
  refine ⟨⟨?_, ?_⟩, fun e => ?_, fun o ho => ?_⟩
  · rintro ⟨o, ho⟩
    obtain ⟨l, rfl, ha, -⟩ := matchGroups_eq_ok_iff.1 ho
    exact Plan.admits_iff.1 ha
  · intro h
    exact ⟨_, matchGroups_eq_ok_iff.2 ⟨⟨groups, h.ids⟩, rfl, Plan.admits_iff.2 h, rfl⟩⟩
  · rw [← faultOf_matchGroups, faultOf_eq_some_iff]
  · obtain ⟨l, rfl, ha, rfl⟩ := matchGroups_eq_ok_iff.1 ho
    exact ⟨l, _, Ledger.ofGroups_eq_ok_iff.2 rfl, Plan.resolve_eq_ok_iff.2 ⟨ha, rfl⟩, rfl,
      Plan.fits_of_mem ha, Plan.map_names_ofForest l forest⟩

/-- Nothing is wrong with the first forest. In the second one a target comes twice before an unknown
demand node. -/
theorem matchGroups_validates_sample : Matchable .strict sampleGroups sampleForest ∧
    matchGroups .standard [[.ofPeers "a" ["x", "x"], .ofPeers "q" []]] sampleGroups =
      .error (.duplicatePeer "x") := by
  obtain ⟨hok, -, -⟩ := matchGroups_validates .standard sampleForest sampleGroups
  obtain ⟨-, hfault, -⟩ :=
    matchGroups_validates .standard [[.ofPeers "a" ["x", "x"], .ofPeers "q" []]] sampleGroups
  exact ⟨hok.1 ⟨_, matchGroups_sample .strict⟩, (hfault _).2 (by decide)⟩

end FairShare
