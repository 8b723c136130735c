import FairShare.Proofs.Matching.Shortage
import FairShare.Proofs.Tier.Preference
import Mathlib.Data.List.Nodup
import Mathlib.Data.List.TakeWhile

/-!
# Preferences are kept

A demand entity gets nothing of what it ranks lower while something that it ranks higher is left. In
a tier that follows from where its matches come from: ahead of an edge along which anything has
flowed nothing is left, and what a node ranks above the first mention of a supply entity lies ahead
of every edge to that entity (`Plan.slot_mem_ahead`). Tiers that come later give nothing back
(`Plan.forall₂_resolveTiers`).
-/

namespace FairShare

/-- The sub-tiers of a node before the first one that names an id. -/
def Node.above (n : Node) (id : String) : Forest :=
  n.subTiers.takeWhile fun sub => !sub.any (·.id == id)

theorem Node.above_prefix (n : Node) (id : String) : n.above id <+: n.subTiers :=
  List.takeWhile_prefix _

theorem Node.ne_of_mem_above {n : Node} {id : String} {sub : Tier} (hs : sub ∈ n.above id) {x : Node}
    (hx : x ∈ sub) : x.id ≠ id := by
  have hnone := List.mem_takeWhile_imp hs
  rw [Bool.not_eq_true', List.any_eq_false] at hnone
  exact fun h => hnone x hx (beq_iff_eq.2 h)

theorem prefix_of_append_eq {α : Type} {as bs cs ds : List α} {a : α} (h : as ++ bs = cs ++ a :: ds)
    (ha : a ∉ as) : as <+: cs := by
  rcases List.append_eq_append_iff.1 h with ⟨es, rfl, -⟩ | ⟨es, rfl, hes⟩
  · exact List.prefix_append ..
  · cases es with
    | nil => simp
    | cons e es =>
      obtain ⟨rfl, -⟩ := List.cons.inj hes
      exact absurd (List.mem_append_right _ (List.mem_cons_self ..)) ha

namespace Plan
variable {l : Ledger}

theorem targetsOf_append (l : Ledger) (upper lower : List Tier) :
    targetsOf l (upper ++ lower) = targetsOf l upper ++ targetsOf l lower := by
  rw [targetsOf, List.map_append, List.filter_append]; rfl

theorem mem_targetsOf {subTiers : List Tier} {sub : Tier} (hs : sub ∈ subTiers) {x : Node}
    (hx : x ∈ sub) {i : Nat} (hi : l.position .supply x.id = some i) :
    i ∈ slotsOf l .supply sub ∧ slotsOf l .supply sub ∈ targetsOf l subTiers := by
  have hmem : i ∈ slotsOf l .supply sub := mem_slotsOf.2 ⟨x, hx, hi⟩
  refine ⟨hmem, List.mem_filter.2 ⟨List.mem_map_of_mem hs, ?_⟩⟩
  simp [List.ne_nil_of_mem hmem]

/-- What a node ranks above the first mention of an entity lies ahead of every edge to it. -/
theorem slot_mem_ahead {n : Node} {before after : List (List Nat)} {peers : List Nat} {s : Nat}
    (ht : targetsOf l n.subTiers = before ++ peers :: after) (hs : s ∈ peers) {sub : Tier}
    (hsub : sub ∈ n.above (l.id .supply s)) {x : Node} (hx : x ∈ sub) {i : Nat}
    (hi : l.position .supply x.id = some i) : i ∈ before.flatten := by
  obtain ⟨rest, hrest⟩ := n.above_prefix (l.id .supply s)
  -- `peers` names the entity, which nothing above its first mention does
  have hpeers : peers ∉ targetsOf l (n.above (l.id .supply s)) := by
    intro hmem
    obtain ⟨sub', hsub', rfl⟩ := List.mem_map.1 (List.mem_filter.1 hmem).1
    obtain ⟨y, hy, hpos⟩ := mem_slotsOf.1 hs
    exact Node.ne_of_mem_above hsub' hy (Ledger.position_eq_some.1 hpos).2.symm
  rw [← hrest, targetsOf_append] at ht
  obtain ⟨hslot, htarget⟩ := mem_targetsOf hsub hx hi
  exact List.mem_flatten.2 ⟨_, (prefix_of_append_eq ht hpeers).subset htarget, hslot⟩

end Plan

/-- Whoever gets anything from a tier is named by it, and has nothing left of all that its node
ranks above what it gets: not when the tier is over, and not in the outcome `o`. -/
def TierOutcome.Ranked (groups : Groups) (o : Outcome) (tier : Tier) (t : TierOutcome) : Prop :=
  ∀ p ∈ t.pairs, (∃ n ∈ tier, n.id = p.demand ∧ ∃ sub ∈ n.subTiers, ∃ x ∈ sub, x.id = p.supply) ∧
    ∀ n ∈ tier, n.id = p.demand → ∀ sub ∈ n.above p.supply, ∀ x ∈ sub, x.id ∈ idsOf groups.supply →
      (∃ i, t.ledger.position .supply x.id = some i ∧ t.ledger.remaining .supply i = .zero) ∧
        o.leftoverFor .supply x.id = .zero

namespace Plan
variable {l mid last : Ledger} {tier : Tier}

/-- A member stands for every node of the tier that has its id. -/
theorem targets_eq (ht : (tierOf l tier).Fits mid) {m : Member} (hm : m ∈ tierOf l tier) {n : Node}
    (hn : n ∈ tier) (hid : l.position .demand n.id = some m.demand) :
    m.targets = targetsOf l n.subTiers := by
  have hmem : ⟨m.demand, targetsOf l n.subTiers⟩ ∈ tierOf l tier :=
    mem_tierOf.2 ⟨n, hn, m.demand, hid, rfl⟩
  rw [List.inj_on_of_nodup_map ht.nodup_demand hm hmem rfl]

theorem exists_node {m : Member} (hm : m ∈ tierOf l tier) {peers : List Nat} (hp : peers ∈ m.targets)
    {s : Nat} (hs : s ∈ peers) : ∃ n ∈ tier, n.id = l.id .demand m.demand ∧
      ∃ sub ∈ n.subTiers, ∃ x ∈ sub, x.id = l.id .supply s := by
  obtain ⟨n, hn, d, hd, rfl⟩ := mem_tierOf.1 hm
  obtain ⟨sub, hsub, rfl⟩ := List.mem_map.1 (List.mem_filter.1 hp).1
  obtain ⟨x, hx, hxs⟩ := mem_slotsOf.1 hs
  exact ⟨n, hn, (Ledger.position_eq_some.1 hd).2.symm, sub, hsub, x, hx,
    (Ledger.position_eq_some.1 hxs).2.symm⟩

theorem ranked_resolve (hids : ∀ side, mid.ids side = l.ids side) (ht : (tierOf l tier).Fits mid)
    {pairs : List Match} (hb : l.Books pairs last)
    (hlast : ((tierOf l tier).resolve mid).ledger.DrainsTo last) (b : Bool) :
    ((tierOf l tier).resolve mid).Ranked l.slots ⟨pairs, last.leftovers b⟩ tier := by
  intro p hp
  obtain ⟨m, hm, before, peers, after, s, htargets, hs, hnames, hdry⟩ :=
    TierPlan.exists_member_of_mem_pairs ht hp
  rw [Ledger.names_congr hids] at hnames
  have hdemand : p.demand = l.id .demand m.demand := Match.entity_eq_id hnames .demand
  have hsupply : p.supply = l.id .supply s := Match.entity_eq_id hnames .supply
  refine ⟨?_, fun n hn hid sub hsub x hx hknown => ?_⟩
  · rw [hdemand, hsupply]
    exact exists_node hm (htargets ▸ by simp) hs
  · have hlt : m.demand < l.size .demand := by
      rw [← Ledger.size_congr (hids .demand)]; exact ht.demand_lt m hm
    have hd : l.position .demand n.id = some m.demand :=
      Ledger.position_eq_some.2 ⟨hlt, (hid.trans hdemand).symm⟩
    obtain ⟨i, hi⟩ := Option.isSome_iff_exists.1 ((l.isSome_position_iff .supply x.id).2 hknown)
    have hahead : i ∈ before.flatten :=
      slot_mem_ahead (targets_eq ht hm hn hd ▸ htargets) hs (hsupply ▸ hsub) hx hi
    have hdead := hdry i hahead
    refine ⟨⟨i, ?_, Volume.ext (Ledger.not_isLive_iff.1 hdead)⟩, ?_⟩
    · have hids' := (TierPlan.books_resolve ht).ids_eq .supply
      rw [Ledger.position_congr (hids'.trans (hids .supply)), hi]
    · exact Ledger.leftoverFor_eq_zero hb hi (hlast .supply i hdead) pairs b

end Plan

/-- In every tier of a matching demand entities exhaust what they rank higher before they get
anything of what they rank lower. -/
theorem matchGroups_ranked {config : Config} {forest : Forest} {groups : Groups} {o : Outcome}
    (h : matchGroups config forest groups = .ok o) :
    ∃ l plan, Ledger.ofGroups groups = .ok l ∧ Plan.resolve l config.references forest = .ok plan ∧
      o = plan.settle config l ∧
      List.Forall₂ (TierOutcome.Ranked groups o) forest (plan.resolveTiers l).1 := by
  obtain ⟨l, rfl, ha, rfl⟩ := matchGroups_eq_ok_iff.1 h
  refine ⟨l, _, Ledger.ofGroups_eq_ok_iff.2 rfl, Plan.resolve_eq_ok_iff.2 ⟨ha, rfl⟩, rfl, ?_⟩
  have hfits := Plan.fits_of_mem ha
  have htiers := Plan.forall₂_resolveTiers hfits
  rw [Plan.ofForest, List.forall₂_map_left_iff] at htiers
  refine htiers.imp ?_
  rintro tier t ⟨mid, hids, ht, rfl, hlast⟩
  exact Plan.ranked_resolve hids ht (Plan.books_ledgerAfter hfits) hlast config.reportExhausted

/-- From its first tier `a` got some of `y`, behind `x`. -/
theorem matchGroups_ranked_sample :
    matchGroups .standard sampleForest sampleGroups = .ok sampleOutcome ∧ ∃ l plan,
      Ledger.ofGroups sampleGroups = .ok l ∧ Plan.resolve l .strict sampleForest = .ok plan ∧
      sampleOutcome = plan.settle .standard l ∧
      List.Forall₂ (TierOutcome.Ranked sampleGroups sampleOutcome) sampleForest
        (plan.resolveTiers l).1 :=
  ⟨matchGroups_sample .strict, matchGroups_ranked (matchGroups_sample .strict)⟩

end FairShare
