import FairShare.Proofs.Matching.Run

/-!
# Nobody is left short next to supply

A member is served by a ledger when it has nothing more to ask for, or nothing is left of all that it
names. A full tier serves its members, because otherwise an edge would be active; and since nothing
comes back, it serves them for good. So after any number of tiers every demand entity that they name
is exhausted or has exhausted all it listed.
-/

namespace FairShare

/-- Whether a member is exhausted, or everything that it names. -/
def Member.Served (l : Ledger) (m : Member) : Prop :=
  ¬ l.isLive .demand m.demand ∨ ∀ peers ∈ m.targets, ∀ s ∈ peers, ¬ l.isLive .supply s

theorem Member.Served.mono {l after : Ledger} {pairs : List Match} {m : Member} (h : m.Served l)
    (hb : l.Books pairs after) : m.Served after := by
  rcases h with h | h
  · exact .inl (hb.drainsTo _ _ h)
  · exact .inr fun peers hp s hs => hb.drainsTo _ _ (h peers hp s hs)

namespace TierPlan
variable {tier : TierPlan} {l : Ledger}

theorem served_resolve (ht : tier.Fits l) {m : Member} (hm : m ∈ tier) :
    m.Served (tier.resolve l).ledger := by
  rw [ledger_resolve]
  by_cases hd : (tier.fill l).2.ledger.isLive .demand m.demand
  · refine .inr fun peers hp s hs hl => ?_
    obtain ⟨s', hs', hl'⟩ := exists_mem_preferred hp hs hl
    obtain ⟨e, he, -, hact⟩ := exists_isActive hm hs' hd hl'
    have : e ∈ Round.activeEdges tier.edges (tier.fill l).2.ledger :=
      Round.mem_activeEdges.2 ⟨he, hact⟩
    rw [activeEdges_fill ht] at this
    cases this
  · exact .inl hd

end TierPlan

namespace Plan
variable {l : Ledger} {plan : Plan}

theorem served_ledgerAfter (h : ∀ tier ∈ plan, TierPlan.Fits tier l) {tier : TierPlan}
    (ht : tier ∈ plan) {m : Member} (hm : m ∈ tier) : m.Served (plan.ledgerAfter l) := by
  induction plan generalizing l with
  | nil => cases ht
  | cons first plan ih =>
    obtain ⟨hfirst, hplan⟩ := List.forall_mem_cons.1 h
    have hfits : ∀ tier ∈ plan, TierPlan.Fits tier (first.resolve l).ledger := fun t ht =>
      (hplan t ht).resolve hfirst
    rw [ledgerAfter_cons]
    rcases List.mem_cons.1 ht with rfl | ht
    · exact (TierPlan.served_resolve hfirst hm).mono (books_ledgerAfter hfits)
    · exact ih hfits ht

end Plan

/-- Every demand entity that the forest names is used up, or all the supply that it lists is. -/
def Outcome.NobodyShort (forest : Forest) (groups : Groups) (o : Outcome) : Prop :=
  ∀ tier ∈ forest, ∀ n ∈ tier, n.id ∈ idsOf groups.demand →
    o.leftoverFor .demand n.id = .zero ∨ ∀ sub ∈ n.subTiers, ∀ t ∈ sub,
      t.id ∈ idsOf groups.supply → o.leftoverFor .supply t.id = .zero

theorem Ledger.leftoverFor_eq_zero {l after : Ledger} {pairs : List Match} (hb : l.Books pairs after)
    {side : Side} {id : String} {i : Nat} (hi : l.position side id = some i)
    (h : ¬ after.isLive side i) (ps : List Match) (b : Bool) :
    Outcome.leftoverFor ⟨ps, after.leftovers b⟩ side id = .zero := by
  rw [← position_congr (hb.ids_eq side), position_eq_some] at hi
  obtain ⟨hlt, rfl⟩ := hi
  rw [← Volume.ext (v := after.remaining side i) (w := .zero) (not_isLive_iff.1 h)]
  exact leftoverFor_leftovers (mem_slots.2 ⟨i, hlt, rfl⟩) ps b

theorem nobodyShort_settle {l : Ledger} {config : Config} {forest : Forest}
    (h : Plan.Admits l config.references forest) :
    ((Plan.ofForest l forest).settle config l).NobodyShort forest l.slots := by
  have hfits := Plan.fits_of_mem h
  have hb := Plan.books_ledgerAfter hfits
  intro tier ht n hn hid
  obtain ⟨d, hd⟩ := Option.isSome_iff_exists.1 ((l.isSome_position_iff .demand n.id).2 hid)
  have hserved := Plan.served_ledgerAfter hfits (List.mem_map_of_mem ht)
    (Plan.mem_tierOf.2 ⟨n, hn, d, hd, rfl⟩)
  refine hserved.imp (fun hdead => ?_) fun hdead sub hsub t ht htid => ?_
  · exact Ledger.leftoverFor_eq_zero hb hd hdead _ _
  · obtain ⟨s, hs⟩ := Option.isSome_iff_exists.1 ((l.isSome_position_iff .supply t.id).2 htid)
    have hmem : s ∈ Plan.slotsOf l .supply sub := Plan.mem_slotsOf.2 ⟨t, ht, hs⟩
    refine Ledger.leftoverFor_eq_zero hb hs (hdead (Plan.slotsOf l .supply sub) ?_ s hmem) _ _
    refine List.mem_filter.2 ⟨List.mem_map_of_mem hsub, ?_⟩
    simp [List.ne_nil_of_mem hmem]

/-- A matching leaves nobody short next to supply that they listed, and neither do its first `k`
tiers, which are a matching on their own. -/
theorem matchGroups_nobodyShort {config : Config} {forest : Forest} {groups : Groups} {o : Outcome}
    (h : matchGroups config forest groups = .ok o) :
    o.NobodyShort forest groups ∧ ∀ k, ∃ first, matchGroups config (forest.take k) groups = .ok first ∧
      first.pairs <+: o.pairs ∧ first.NobodyShort (forest.take k) groups := by
  obtain ⟨l, rfl, ha, rfl⟩ := matchGroups_eq_ok_iff.1 h
  refine ⟨nobodyShort_settle ha, fun k => ?_⟩
  have hk : Plan.Admits l config.references (forest.take k) := fun tier ht =>
    ha tier (List.mem_of_mem_take ht)
  refine ⟨_, matchGroups_eq_ok_iff.2 ⟨l, rfl, hk, rfl⟩, ?_, nobodyShort_settle hk⟩
  have hsplit : Plan.ofForest l forest =
      Plan.ofForest l (forest.take k) ++ Plan.ofForest l (forest.drop k) := by
    rw [← Plan.ofForest_append, List.take_append_drop]
  rw [Plan.settle_eq, Plan.settle_eq, hsplit, Plan.pairsOf_append]
  exact List.prefix_append ..

theorem matchGroups_nobodyShort_sample :
    matchGroups .standard sampleForest sampleGroups = .ok sampleOutcome ∧
      sampleOutcome.NobodyShort sampleForest sampleGroups ∧ ∃ first,
        matchGroups .standard (sampleForest.take 1) sampleGroups = .ok first ∧
          first.pairs <+: sampleOutcome.pairs ∧
          first.NobodyShort (sampleForest.take 1) sampleGroups := by
  obtain ⟨hall, hk⟩ := matchGroups_nobodyShort (matchGroups_sample .strict)
  exact ⟨matchGroups_sample .strict, hall, hk 1⟩

end FairShare
