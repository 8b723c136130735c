import FairShare.Plan
import FairShare.Proofs.Tier.Shape

/-!
# Plans of admissible forests

`Plan.ofForest` is the plan of a forest read off directly: known ids become slots, unknown ones are
passed over. `Plan.Admits` says which forests are accepted: no slot is named twice among peers, supply
nodes are leaves, and under the strict policy all ids are known. Planning succeeds exactly on the
forests that are admitted, with that plan (`Plan.resolve_eq_ok_iff`), and every tier of it fits the
ledger (`Plan.fits_of_mem`).
-/

namespace FairShare
namespace Plan
variable {l : Ledger} {policy : Policy} {side : Side}

def slotsOf (l : Ledger) (side : Side) (nodes : List Node) : List Nat :=
  nodes.filterMap fun n => l.position side n.id

/-- The sub-tiers of a node, without those in which nobody is known. -/
def targetsOf (l : Ledger) (subTiers : List Tier) : List (List Nat) :=
  (subTiers.map (slotsOf l .supply)).filter fun slots => !slots.isEmpty

def tierOf (l : Ledger) (tier : Tier) : TierPlan :=
  tier.filterMap fun n => (l.position .demand n.id).map fun d => ⟨d, targetsOf l n.subTiers⟩

def ofForest (l : Ledger) (forest : Forest) : Plan := forest.map (tierOf l)

theorem ofForest_append (l : Ledger) (upper lower : Forest) :
    ofForest l (upper ++ lower) = ofForest l upper ++ ofForest l lower := List.map_append

/-- Nodes that may be peers: none is named twice, and under the strict policy all are known. -/
structure Peerable (l : Ledger) (policy : Policy) (side : Side) (nodes : List Node) : Prop where
  known : policy = .strict → ∀ n ∈ nodes, (l.position side n.id).isSome
  nodup : (slotsOf l side nodes).Nodup

/-- The forests that have a plan. What stands under an unknown demand node does not matter. -/
def Admits (l : Ledger) (policy : Policy) (forest : Forest) : Prop :=
  ∀ tier ∈ forest, Peerable l policy .demand tier ∧
    ∀ n ∈ tier, (l.position .demand n.id).isSome →
      ∀ sub ∈ n.subTiers, (∀ t ∈ sub, t.isLeaf) ∧ Peerable l policy .supply sub

theorem mem_slotsOf {nodes : List Node} {i : Nat} :
    i ∈ slotsOf l side nodes ↔ ∃ n ∈ nodes, l.position side n.id = some i := List.mem_filterMap

theorem peerable_nil : Peerable l policy side [] := ⟨fun _ _ h => absurd h (by simp), .nil⟩

theorem peerable_cons_none {n : Node} {nodes : List Node} (hn : l.position side n.id = none) :
    Peerable l policy side (n :: nodes) ↔ policy = .lenient ∧ Peerable l policy side nodes := by
  have hslots : slotsOf l side (n :: nodes) = slotsOf l side nodes := List.filterMap_cons_none hn
  constructor
  · intro h
    have hp : policy = .lenient := by
      cases policy with
      | lenient => rfl
      | strict => have := h.known rfl n (by simp); rw [hn] at this; cases this
    exact ⟨hp, fun hs n' hn' => h.known hs n' (List.mem_cons_of_mem _ hn'), hslots ▸ h.nodup⟩
  · rintro ⟨rfl, h⟩
    exact ⟨(nomatch ·), hslots ▸ h.nodup⟩

theorem peerable_cons_some {n : Node} {nodes : List Node} {i : Nat}
    (hn : l.position side n.id = some i) : Peerable l policy side (n :: nodes) ↔
      i ∉ slotsOf l side nodes ∧ Peerable l policy side nodes := by
  have hslots : slotsOf l side (n :: nodes) = i :: slotsOf l side nodes :=
    List.filterMap_cons_some hn
  constructor
  · intro h
    obtain ⟨hi, hnodup⟩ := List.nodup_cons.1 (hslots ▸ h.nodup)
    exact ⟨hi, fun hs n' hn' => h.known hs n' (List.mem_cons_of_mem _ hn'), hnodup⟩
  · rintro ⟨hi, h⟩
    refine ⟨fun hs n' hn' => ?_, hslots ▸ List.nodup_cons.2 ⟨hi, h.nodup⟩⟩
    rcases List.mem_cons.1 hn' with rfl | hn'
    · rw [hn]; rfl
    · exact h.known hs n' hn'

/-! ### Planning succeeds exactly on what is admitted -/

theorem outcome_lookup_some {id : String} {i : Nat} (h : l.position side id = some i) :
    (lookup l policy side id).outcome = .ok (some i) := by
  unfold lookup; rw [h]; rfl

theorem outcome_lookup_lenient {id : String} (h : l.position side id = none) :
    (lookup l .lenient side id).outcome = .ok none := by
  unfold lookup; rw [h]

theorem outcome_lookup_strict {id : String} (h : l.position side id = none) :
    (lookup l .strict side id).outcome = .error (.danglingReference side id) := by
  unfold lookup; rw [h]; rfl

theorem bind_eq_ok_iff {α β : Type} {x : Except Fault α} {f : α → Except Fault β} {b : β} :
    x.bind f = .ok b ↔ ∃ a, x = .ok a ∧ f a = .ok b := by
  cases x with
  | error e => exact ⟨fun h => (by cases h), fun ⟨_, h, _⟩ => (by cases h)⟩
  | ok a => exact ⟨fun h => ⟨a, rfl, h⟩, fun ⟨_, h, h'⟩ => by cases h; exact h'⟩

theorem forall_not_mem_cons {i : Nat} {taken slots : List Nat} :
    (∀ j ∈ slots, j ∉ i :: taken) ↔ i ∉ slots ∧ ∀ j ∈ slots, j ∉ taken := by
  constructor
  · intro h
    exact ⟨fun hi => h i hi (List.mem_cons_self ..), fun j hj ht => h j hj (List.mem_cons_of_mem _ ht)⟩
  · rintro ⟨hi, h⟩ j hj hjt
    rcases List.mem_cons.1 hjt with rfl | hjt
    · exact hi hj
    · exact h j hj hjt

theorem outcome_peers {taken : List Nat} {nodes : List Node} {slots : List Nat} :
    (peers l policy taken nodes).outcome = .ok slots ↔
      ((∀ t ∈ nodes, t.isLeaf) ∧ Peerable l policy .supply nodes) ∧
        (∀ i ∈ slotsOf l .supply nodes, i ∉ taken) ∧ slots = slotsOf l .supply nodes := by
  induction nodes generalizing taken slots with
  | nil =>
    constructor
    · intro h; cases h; exact ⟨⟨by simp, peerable_nil⟩, by simp [slotsOf], rfl⟩
    · rintro ⟨-, -, rfl⟩; rfl
  | cons n nodes ih =>
    rw [peers]
    by_cases hleaf : n.isLeaf
    · rw [if_pos hleaf, Survey.outcome_bind]
      cases hn : l.position .supply n.id with
      | none =>
        have hslots : slotsOf l .supply (n :: nodes) = slotsOf l .supply nodes :=
          List.filterMap_cons_none hn
        rw [peerable_cons_none hn, hslots]
        cases policy with
        | strict => simp [outcome_lookup_strict hn, Except.bind]
        | lenient =>
          rw [outcome_lookup_lenient hn]
          simp only [Except.bind, ih, List.forall_mem_cons, hleaf, true_and]
      | some i =>
        have hslots : slotsOf l .supply (n :: nodes) = i :: slotsOf l .supply nodes :=
          List.filterMap_cons_some hn
        rw [peerable_cons_some hn, hslots, outcome_lookup_some hn]
        simp only [Except.bind]
        by_cases ht : i ∈ taken
        · simp [ht]
        · rw [if_neg ht, Survey.outcome_bind, bind_eq_ok_iff]
          simp only [ih, forall_not_mem_cons, List.forall_mem_cons, Survey.outcome_pure,
            Except.ok.injEq]
          constructor
          · rintro ⟨_, ⟨⟨hl, hp⟩, ⟨hi, hd⟩, rfl⟩, rfl⟩
            exact ⟨⟨⟨hleaf, hl⟩, hi, hp⟩, ⟨ht, hd⟩, rfl⟩
          · rintro ⟨⟨⟨-, hl⟩, hi, hp⟩, ⟨-, hd⟩, rfl⟩
            exact ⟨_, ⟨⟨hl, hp⟩, ⟨hi, hd⟩, rfl⟩, rfl⟩
    · simp [hleaf]

theorem outcome_targets {subTiers : List Tier} {slots : List (List Nat)} :
    (targets l policy subTiers).outcome = .ok slots ↔
      (∀ sub ∈ subTiers, (∀ t ∈ sub, t.isLeaf) ∧ Peerable l policy .supply sub) ∧
        slots = targetsOf l subTiers := by
  induction subTiers generalizing slots with
  | nil =>
    constructor
    · intro h; cases h; exact ⟨by simp, rfl⟩
    · rintro ⟨-, rfl⟩; rfl
  | cons sub subTiers ih =>
    have hcons : targetsOf l (sub :: subTiers) = if (slotsOf l .supply sub).isEmpty
        then targetsOf l subTiers else slotsOf l .supply sub :: targetsOf l subTiers := by
      rw [targetsOf, List.map_cons, List.filter_cons]
      cases (slotsOf l .supply sub).isEmpty <;> rfl
    rw [targets, Survey.outcome_bind, bind_eq_ok_iff, hcons]
    simp only [Survey.outcome_bind, bind_eq_ok_iff, ih, outcome_peers, Survey.outcome_pure,
      Except.ok.injEq]
    constructor
    · rintro ⟨_, ⟨hsub, -, rfl⟩, _, ⟨hrest, rfl⟩, rfl⟩
      exact ⟨List.forall_mem_cons.2 ⟨hsub, hrest⟩, rfl⟩
    · rintro ⟨h, rfl⟩
      obtain ⟨hsub, hrest⟩ := List.forall_mem_cons.1 h
      exact ⟨_, ⟨hsub, by simp, rfl⟩, _, ⟨hrest, rfl⟩, rfl⟩

theorem outcome_members {taken : List Nat} {tier : Tier} {plan : TierPlan} :
    (members l policy taken tier).outcome = .ok plan ↔
      (Peerable l policy .demand tier ∧ ∀ n ∈ tier, (l.position .demand n.id).isSome →
        ∀ sub ∈ n.subTiers, (∀ t ∈ sub, t.isLeaf) ∧ Peerable l policy .supply sub) ∧
      (∀ i ∈ slotsOf l .demand tier, i ∉ taken) ∧ plan = tierOf l tier := by
  induction tier generalizing taken plan with
  | nil =>
    constructor
    · intro h; cases h; exact ⟨⟨peerable_nil, by simp⟩, by simp [slotsOf], rfl⟩
    · rintro ⟨-, -, rfl⟩; rfl
  | cons n tier ih =>
    rw [members, Survey.outcome_bind]
    cases hn : l.position .demand n.id with
    | none =>
      have hslots : slotsOf l .demand (n :: tier) = slotsOf l .demand tier :=
        List.filterMap_cons_none hn
      have htier : tierOf l (n :: tier) = tierOf l tier :=
        List.filterMap_cons_none (by rw [hn]; rfl)
      rw [peerable_cons_none hn, hslots, htier]
      cases policy with
      | strict => simp [outcome_lookup_strict hn, Except.bind]
      | lenient =>
        rw [outcome_lookup_lenient hn]
        simp [Except.bind, ih, hn]
    | some i =>
      have hslots : slotsOf l .demand (n :: tier) = i :: slotsOf l .demand tier :=
        List.filterMap_cons_some hn
      have htier : tierOf l (n :: tier) = ⟨i, targetsOf l n.subTiers⟩ :: tierOf l tier :=
        List.filterMap_cons_some (by rw [hn]; rfl)
      rw [peerable_cons_some hn, hslots, htier, outcome_lookup_some hn]
      simp only [Except.bind]
      by_cases ht : i ∈ taken
      · simp [ht]
      · rw [if_neg ht, Survey.outcome_bind, bind_eq_ok_iff]
        simp only [Survey.outcome_bind, bind_eq_ok_iff, ih, outcome_targets, forall_not_mem_cons,
          Survey.outcome_pure, Except.ok.injEq]
        rw [List.forall_mem_cons, List.forall_mem_cons]
        constructor
        · rintro ⟨_, ⟨hsub, rfl⟩, _, ⟨⟨hp, hm⟩, ⟨hi, hd⟩, rfl⟩, rfl⟩
          exact ⟨⟨⟨hi, hp⟩, fun _ => hsub, hm⟩, ⟨ht, hd⟩, rfl⟩
        · rintro ⟨⟨⟨hi, hp⟩, hsub, hm⟩, ⟨-, hd⟩, rfl⟩
          exact ⟨_, ⟨hsub (by rw [hn]; rfl), rfl⟩, _, ⟨⟨hp, hm⟩, ⟨hi, hd⟩, rfl⟩, rfl⟩

/-- A forest has a plan exactly if it is admitted, and the plan is the one read off it. -/
theorem resolve_eq_ok_iff {forest : Forest} {plan : Plan} :
    resolve l policy forest = .ok plan ↔ Admits l policy forest ∧ plan = ofForest l forest := by
  rw [resolve]
  induction forest generalizing plan with
  | nil =>
    constructor
    · intro h; cases h; exact ⟨fun _ h => absurd h (by simp), rfl⟩
    · rintro ⟨-, rfl⟩; rfl
  | cons tier forest ih =>
    rw [survey, Survey.outcome_bind, bind_eq_ok_iff]
    simp only [Survey.outcome_bind, bind_eq_ok_iff, ih, outcome_members, Survey.outcome_pure,
      Except.ok.injEq]
    constructor
    · rintro ⟨_, ⟨htier, -, rfl⟩, _, ⟨hrest, rfl⟩, rfl⟩
      exact ⟨List.forall_mem_cons.2 ⟨htier, hrest⟩, rfl⟩
    · rintro ⟨h, rfl⟩
      obtain ⟨htier, hrest⟩ := List.forall_mem_cons.1 h
      exact ⟨_, ⟨htier, by simp, rfl⟩, _, ⟨hrest, rfl⟩, rfl⟩

/-! ### The tiers of a plan -/

theorem mem_tierOf {tier : Tier} {m : Member} : m ∈ tierOf l tier ↔
    ∃ n ∈ tier, ∃ d, l.position .demand n.id = some d ∧ m = ⟨d, targetsOf l n.subTiers⟩ := by
  simp only [tierOf, List.mem_filterMap, Option.map_eq_some_iff]
  constructor
  · rintro ⟨n, hn, d, hd, rfl⟩; exact ⟨n, hn, d, hd, rfl⟩
  · rintro ⟨n, hn, d, hd, rfl⟩; exact ⟨n, hn, d, hd, rfl⟩

theorem map_demand_tierOf (l : Ledger) (tier : Tier) :
    (tierOf l tier).map (·.demand) = slotsOf l .demand tier := by
  rw [tierOf, slotsOf, List.map_filterMap]
  congr 1
  funext n
  cases l.position .demand n.id <;> rfl

theorem lt_size_of_mem_slotsOf {nodes : List Node} {i : Nat} (h : i ∈ slotsOf l side nodes) :
    i < l.size side := by
  obtain ⟨n, -, hi⟩ := mem_slotsOf.1 h
  exact (Ledger.position_eq_some.1 hi).1

theorem fits_of_mem {forest : Forest} (h : Admits l policy forest) :
    ∀ tier ∈ ofForest l forest, TierPlan.Fits tier l := by
  intro tier ht
  obtain ⟨t, hmem, rfl⟩ := List.mem_map.1 ht
  obtain ⟨hp, hsub⟩ := h t hmem
  have htargets : ∀ m ∈ tierOf l t, ∀ peers ∈ m.targets,
      ∃ sub, Peerable l policy .supply sub ∧ peers = slotsOf l .supply sub := by
    intro m hm peers hpeers
    obtain ⟨n, hn, d, hd, rfl⟩ := mem_tierOf.1 hm
    obtain ⟨sub, hs, rfl⟩ := List.mem_map.1 (List.mem_filter.1 hpeers).1
    exact ⟨sub, (hsub n hn (by rw [hd]; rfl) sub hs).2, rfl⟩
  refine ⟨fun m hm => ?_, fun m hm peers hpeers s hs => ?_, ?_, fun m hm peers hpeers => ?_⟩
  · obtain ⟨n, -, d, hd, rfl⟩ := mem_tierOf.1 hm
    exact (Ledger.position_eq_some.1 hd).1
  · obtain ⟨sub, -, rfl⟩ := htargets m hm peers hpeers
    exact lt_size_of_mem_slotsOf hs
  · rw [map_demand_tierOf]; exact hp.nodup
  · obtain ⟨sub, hsub, rfl⟩ := htargets m hm peers hpeers
    exact hsub.nodup

end Plan
end FairShare
