import FairShare.Proofs.Matching.Precedence
import FairShare.Proofs.Matching.Shortage

/-!
# Matching what a matching has left

Where all members of a tier are served, no edge is active: the tier has no round, makes no match and
leaves the ledger as it is (`TierPlan.resolve_of_served`). A matching serves the members of all its
tiers for good, those of the first no less than those of the last, so carrying out its plan once more
does nothing. To match the leftovers is to carry out the plan once more, whether or not they list the
entities that are exhausted.
-/

namespace FairShare
namespace TierPlan
variable {tier : TierPlan} {l : Ledger}

theorem activeEdges_of_served (h : ∀ m ∈ tier, m.Served l) :
    Round.activeEdges tier.edges l = [] := by
  refine List.eq_nil_iff_forall_not_mem.2 fun e he => ?_
  obtain ⟨hmem, hact⟩ := Round.mem_activeEdges.1 he
  have hlive := (Edge.isActive_iff.1 hact).1
  obtain ⟨m, i, hm, -, hd, before, peers, after, htargets, hs, -⟩ := exists_of_mem_edges hmem
  rcases h m (List.fst_mem_of_mem_zipIdx hm) with hdead | hdead
  · rw [← hd] at hdead
    exact hdead (hlive .demand)
  · exact hdead peers (by simp [htargets]) _ hs (hlive .supply)

theorem pairs_start (l : Ledger) (edges : List Edge) :
    pairs l edges (Filling.start edges l).flows = [] := by
  refine List.filterMap_eq_nil_iff.2 fun g hg => if_pos ?_
  obtain ⟨_, -, hz⟩ := List.mem_map.1 (List.of_mem_zip hg).2
  rw [← hz]
  rfl

/-- A tier whose members are served does nothing. -/
theorem resolve_of_served (ht : tier.Fits l) (h : ∀ m ∈ tier, m.Served l) :
    (tier.resolve l).pairs = [] ∧ (tier.resolve l).ledger = l := by
  have hnone : Round.next? tier.edges (tier.holders l) (Filling.start tier.edges l).ledger = none :=
    (Round.next?_eq_none_iff ht).2 (activeEdges_of_served h)
  have hfill : (tier.fill l).2 = .start tier.edges l := by rw [fill, Filling.run_eq_of_none hnone]
  rw [pairs_resolve, ledger_resolve, hfill]
  exact ⟨pairs_start l tier.edges, rfl⟩

end TierPlan

namespace Plan
variable {l : Ledger} {plan : Plan}

theorem settle_of_served (hfits : ∀ tier ∈ plan, TierPlan.Fits tier l)
    (h : ∀ tier ∈ plan, ∀ m ∈ tier, m.Served l) (config : Config) :
    plan.settle config l = ⟨[], l.leftovers config.reportExhausted⟩ := by
  have hidle : pairsOf l plan = [] ∧ ledgerAfter l plan = l := by
    induction plan with
    | nil => exact ⟨rfl, rfl⟩
    | cons tier plan ih =>
      obtain ⟨htier, hplan⟩ := List.forall_mem_cons.1 hfits
      obtain ⟨hserved, hrest⟩ := List.forall_mem_cons.1 h
      obtain ⟨hpairs, hledger⟩ := TierPlan.resolve_of_served htier hserved
      rw [pairsOf_cons, ledgerAfter_cons, hpairs, hledger]
      exact ih hplan hrest
  rw [settle_eq, hidle.1, hidle.2]

end Plan

/-- To match the same forest with the leftovers of a matching for groups changes nothing. Where
unknown ids are refused, the leftovers have to list everybody. -/
theorem matchGroups_leftovers {config : Config} {forest : Forest} {groups : Groups} {o : Outcome}
    (hc : config.references = .lenient ∨ config.reportExhausted)
    (h : matchGroups config forest groups = .ok o) :
    matchGroups config forest o.leftovers = .ok ⟨[], o.leftovers⟩ := by
  obtain ⟨l, rfl, ha, rfl⟩ := matchGroups_eq_ok_iff.1 h
  have hfits := Plan.fits_of_mem ha
  have hids := (Plan.books_ledgerAfter hfits).ids_eq
  obtain ⟨hadmits, hsettle⟩ := Plan.settle_retain hc hids ha
  refine matchGroups_eq_ok_iff.2 ⟨_, rfl, hadmits, ?_⟩
  rw [hsettle, Plan.settle_of_served (fun tier ht => (hfits tier ht).congr hids)
    fun tier ht m hm => Plan.served_ledgerAfter hfits ht hm]
  rfl

/-- Of the four entities that are exhausted none is known any more. -/
theorem matchGroups_leftovers_sample :
    matchGroups ⟨.lenient, false⟩ sampleForest sampleGroups = .ok sampleOutcome ∧
      matchGroups ⟨.lenient, false⟩ sampleForest sampleOutcome.leftovers =
        .ok ⟨[], sampleOutcome.leftovers⟩ :=
  ⟨matchGroups_sample .lenient, matchGroups_leftovers (.inl rfl) (matchGroups_sample .lenient)⟩

end FairShare
