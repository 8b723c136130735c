import FairShare.Proofs.Matching.Shortage
import FairShare.Proofs.Tier.Fairness
import FairShare.Proofs.Tier.Preference

/-!
# How matches are listed

The matches of a matching are listed in the order of the forest, tier by tier, node by node and in
the order of preference of the node; each has a positive volume, which both entities have declared.
No two of them are between the same entities, although a forest may name a pair any number of times:
in a tier only the first mention in a node ever counts, and a tier that is over has exhausted one of
the two (`TierPlan.exists_exhausted_of_mem_pairs`).
-/

namespace FairShare

/-- The ids that a node pairs with its own, in order of preference. -/
def Node.couples (n : Node) : List (BySide String) := n.subTiers.flatten.map fun t => ⟨n.id, t.id⟩

/-- The pairs of ids that a forest names, in its order. -/
def Forest.couples (forest : Forest) : List (BySide String) :=
  forest.flatMap fun tier => tier.flatMap Node.couples

theorem map_filterMap_sublist {α β γ : Type} {f : α → Option β} {g : β → γ} {h : α → γ} {as : List α}
    (hfg : ∀ a b, f a = some b → g b = h a) : ((as.filterMap f).map g).Sublist (as.map h) := by
  induction as with
  | nil => exact .slnil
  | cons a as ih =>
    cases ha : f a with
    | none => rw [List.filterMap_cons_none ha]; exact ih.cons _
    | some b =>
      rw [List.filterMap_cons_some ha, List.map_cons, hfg a b ha]
      exact ih.cons_cons _

theorem sublist_flatMap_of_forall₂ {α β γ : Type} {f : α → List γ} {g : β → List γ} {as : List α}
    {bs : List β} (h : List.Forall₂ (fun a b => (g b).Sublist (f a)) as bs) :
    (bs.flatMap g).Sublist (as.flatMap f) := by
  induction h with
  | nil => exact .slnil
  | cons hab _ ih =>
    rw [List.flatMap_cons, List.flatMap_cons]
    exact hab.append ih

/-! ### Order -/

theorem map_ends_edgesFrom (i d : Nat) (ahead : List Nat) (targets : List (List Nat)) :
    (edgesFrom i d ahead targets).map (·.ends) = targets.flatten.map fun s => ⟨d, s⟩ := by
  induction targets generalizing ahead with
  | nil => rfl
  | cons peers rest ih =>
    rw [edgesFrom, List.map_append, ih, List.flatten_cons, List.map_append, List.map_map]
    rfl

theorem TierPlan.map_ends_edges (tier : TierPlan) : tier.edges.map (·.ends) = tier.couples := by
  rw [edges, List.map_flatMap, couples]
  simp only [map_ends_edgesFrom]
  rw [← List.zipIdx_map_fst 0 tier, List.flatMap_map, List.zipIdx_map_fst]

theorem TierPlan.map_ids_pairs_sublist (l : Ledger) {edges : List Edge} {flows : List Volume}
    (h : flows.length = edges.length) :
    ((pairs l edges flows).map (·.ids)).Sublist ((edges.map (·.ends)).map l.names) := by
  have hfst : (edges.zip flows).map Prod.fst = edges := List.map_fst_zip (Nat.le_of_eq h.symm)
  have hzip : (edges.map (·.ends)).map l.names =
      (edges.zip flows).map fun g => l.names g.1.ends := by
    conv_lhs => rw [← hfst]
    rw [List.map_map, List.map_map]; rfl
  rw [hzip]
  exact map_filterMap_sublist fun g p hp => (ids_of_pair hp).2.1

namespace Plan
variable {l : Ledger}

theorem flatten_targetsOf (l : Ledger) (subTiers : List Tier) :
    (targetsOf l subTiers).flatten = slotsOf l .supply subTiers.flatten := by
  rw [targetsOf, List.flatten_filter_not_isEmpty, slotsOf, List.filterMap_flatten]
  rfl

theorem couples_tierOf_sublist (l : Ledger) (tier : Tier) :
    ((tierOf l tier).couples.map l.names).Sublist (tier.flatMap Node.couples) := by
  induction tier with
  | nil => exact .slnil
  | cons n tier ih =>
    cases hn : l.position .demand n.id with
    | none =>
      have : tierOf l (n :: tier) = tierOf l tier := List.filterMap_cons_none (by rw [hn]; rfl)
      rw [this, List.flatMap_cons]
      exact ih.trans (List.sublist_append_right ..)
    | some d =>
      have : tierOf l (n :: tier) = ⟨d, targetsOf l n.subTiers⟩ :: tierOf l tier :=
        List.filterMap_cons_some (by rw [hn]; rfl)
      rw [this, TierPlan.couples, List.flatMap_cons, List.map_append, List.flatMap_cons]
      refine .append ?_ ih
      rw [flatten_targetsOf, List.map_map]
      refine map_filterMap_sublist fun t s hs => ?_
      show (⟨l.id .demand d, l.id .supply s⟩ : BySide String) = ⟨n.id, t.id⟩
      rw [(Ledger.position_eq_some.1 hn).2, (Ledger.position_eq_some.1 hs).2]

/-- The matches of a plan are listed in the order of its forest. -/
theorem ids_pairsOf_sublist {forest : Forest}
    (h : ∀ tier ∈ ofForest l forest, TierPlan.Fits tier l) :
    ((pairsOf l (ofForest l forest)).map (·.ids)).Sublist forest.couples := by
  have htiers := forall₂_resolveTiers h
  rw [ofForest, List.forall₂_map_left_iff] at htiers
  rw [pairsOf, List.map_flatMap]
  refine sublist_flatMap_of_forall₂ (htiers.imp ?_)
  rintro tier t ⟨mid, hids, ht, rfl, -⟩
  refine (TierPlan.map_ids_pairs_sublist mid (TierPlan.balanced_fill ht).length).trans ?_
  rw [TierPlan.map_ends_edges, Ledger.names_congr hids]
  exact couples_tierOf_sublist l tier

end Plan

/-! ### Volumes, and every pair at most once -/

theorem Ledger.Books.le_of_mem {before after : Ledger} {pairs : List Match}
    (hb : before.Books pairs after) {p : Match} (hp : p ∈ pairs) {side : Side} {e : Entity}
    (he : e ∈ before.slots.get side) (hid : p.entity side = e.id) :
    p.volume.units ≤ e.volume.units := by
  have hmem : p.volume ∈ (pairs.filter (·.entity side == e.id)).map (·.volume) :=
    List.mem_map_of_mem (List.mem_filter.2 ⟨hp, beq_iff_eq.2 hid⟩)
  exact Nat.le_trans (le_unitsIn_of_mem hmem) (hb.covered side e he)

theorem TierPlan.exists_exhausted_of_mem_pairs {tier : TierPlan} {l : Ledger} (ht : tier.Fits l)
    {p : Match} (hp : p ∈ (tier.resolve l).pairs) : ∃ side, ∃ i < l.size side,
      p.entity side = l.id side i ∧ ¬ (tier.resolve l).ledger.isLive side i := by
  obtain ⟨m, hm, before, peers, after, s, htargets, hs, hnames, -⟩ := exists_member_of_mem_pairs ht hp
  have hpeers : peers ∈ m.targets := by rw [htargets]; simp
  rcases served_resolve ht hm with hdead | hdead
  · exact ⟨.demand, _, ht.demand_lt m hm, Match.entity_eq_id hnames .demand, hdead⟩
  · exact ⟨.supply, _, ht.supply_lt m hm peers hpeers s hs, Match.entity_eq_id hnames .supply,
      hdead peers hpeers s hs⟩

namespace Plan
variable {l : Ledger} {plan : Plan}

theorem exists_slot_of_mem_pairsOf (h : ∀ tier ∈ plan, TierPlan.Fits tier l) {p : Match}
    (hp : p ∈ plan.pairsOf l) :
    0 < p.volume.units ∧ ∀ side, ∃ i < l.size side, p.entity side = l.id side i := by
  induction plan generalizing l with
  | nil => cases hp
  | cons tier plan ih =>
    obtain ⟨htier, hplan⟩ := List.forall_mem_cons.1 h
    rw [pairsOf_cons] at hp
    rcases List.mem_append.1 hp with hp | hp
    · obtain ⟨hpos, e, he, hnames, -⟩ := TierPlan.exists_of_mem_pairs htier hp
      exact ⟨hpos, fun side => ⟨_, htier.lt_size he side, Match.entity_eq_id hnames side⟩⟩
    · obtain ⟨hpos, hslot⟩ := ih (fun t ht => (hplan t ht).resolve htier) hp
      have hids := (TierPlan.books_resolve htier).ids_eq
      refine ⟨hpos, fun side => ?_⟩
      obtain ⟨i, hi, hid⟩ := hslot side
      rw [Ledger.size_congr (hids side)] at hi
      rw [Ledger.id_congr (hids side)] at hid
      exact ⟨i, hi, hid⟩

/-- A tier that is over has exhausted one entity of every match, so no later tier repeats it. -/
theorem nodup_ids_pairsOf (h : ∀ tier ∈ plan, TierPlan.Fits tier l) :
    ((plan.pairsOf l).map (·.ids)).Nodup := by
  induction plan generalizing l with
  | nil => exact .nil
  | cons tier plan ih =>
    obtain ⟨htier, hplan⟩ := List.forall_mem_cons.1 h
    have hfits : ∀ t ∈ plan, TierPlan.Fits t (tier.resolve l).ledger := fun t ht =>
      (hplan t ht).resolve htier
    rw [pairsOf_cons, List.map_append, List.nodup_append]
    refine ⟨List.pairwise_map.2 (TierPlan.pairwise_pairs htier), ih hfits, ?_⟩
    intro ids hids ids' hids' heq
    obtain ⟨p, hp, rfl⟩ := List.mem_map.1 hids
    obtain ⟨q, hq, rfl⟩ := List.mem_map.1 hids'
    obtain ⟨side, i, hi, hentity, hdead⟩ := TierPlan.exists_exhausted_of_mem_pairs htier hp
    obtain ⟨hpos, -⟩ := exists_slot_of_mem_pairsOf hfits hq
    -- the later match would draw on an entity that holds nothing
    have hids'' := (TierPlan.books_resolve htier).ids_eq side
    rw [← Ledger.size_congr hids''] at hi
    have hle := (books_ledgerAfter hfits).le_of_mem hq (Ledger.mem_slots.2 ⟨i, hi, rfl⟩) (by
      rw [Match.entity_eq, ← heq, ← Match.entity_eq, hentity, ← Ledger.id_congr hids'']; rfl)
    have h0 := Ledger.not_isLive_iff.1 hdead
    rw [Ledger.entity, h0] at hle
    omega

end Plan

/-- The matches come in the order of the forest, no two between the same entities, and each has a
positive volume within what both its entities declare. -/
theorem matchGroups_listed {config : Config} {forest : Forest} {groups : Groups} {o : Outcome}
    (h : matchGroups config forest groups = .ok o) :
    (o.pairs.map (·.ids)).Sublist forest.couples ∧ (o.pairs.map (·.ids)).Nodup ∧
      ∀ p ∈ o.pairs, 0 < p.volume.units ∧ ∃ d ∈ groups.demand, ∃ s ∈ groups.supply,
        d.id = p.demand ∧ s.id = p.supply ∧ p.volume ≤ min d.volume s.volume := by
  obtain ⟨l, rfl, ha, rfl⟩ := matchGroups_eq_ok_iff.1 h
  have hfits := Plan.fits_of_mem ha
  have hb := Plan.books_ledgerAfter hfits
  refine ⟨Plan.ids_pairsOf_sublist hfits, Plan.nodup_ids_pairsOf hfits, fun p hp => ?_⟩
  obtain ⟨hpos, hslot⟩ := Plan.exists_slot_of_mem_pairsOf hfits hp
  have hentity : ∀ side, ∃ e ∈ l.slots.get side, e.id = p.entity side ∧ p.volume ≤ e.volume := by
    intro side
    obtain ⟨i, hi, hid⟩ := hslot side
    have hmem : l.entity side i ∈ l.slots.get side := Ledger.mem_slots.2 ⟨i, hi, rfl⟩
    exact ⟨_, hmem, hid.symm, hb.le_of_mem hp hmem hid⟩
  obtain ⟨d, hd, hdid, hdle⟩ := hentity .demand
  obtain ⟨s, hs, hsid, hsle⟩ := hentity .supply
  exact ⟨hpos, d, hd, s, hs, hdid, hsid, Std.le_min_iff.2 ⟨hdle, hsle⟩⟩

/-- The pair of `a` and `y` is named in both tiers. -/
theorem matchGroups_listed_sample :
    matchGroups .standard sampleForest sampleGroups = .ok sampleOutcome ∧
      (sampleOutcome.pairs.map (·.ids)).Sublist sampleForest.couples ∧
      (sampleOutcome.pairs.map (·.ids)).Nodup ∧
      ∀ p ∈ sampleOutcome.pairs, 0 < p.volume.units ∧ ∃ d ∈ sampleGroups.demand,
        ∃ s ∈ sampleGroups.supply, d.id = p.demand ∧ s.id = p.supply ∧
          p.volume ≤ min d.volume s.volume :=
  ⟨matchGroups_sample .strict, matchGroups_listed (matchGroups_sample .strict)⟩

end FairShare
