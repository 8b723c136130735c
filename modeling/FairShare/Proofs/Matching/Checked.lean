import FairShare.Proofs.Matching.Run
import FairShare.Proofs.Tier.Checked

/-!
# Matching with every check made

A checked matching gives nothing if a check fails in any tier. It never does: every tier of an
admitted plan fits the ledger that it is resolved on (`Plan.fits_ledgerAfter`). So a checked
matching is the plain one, with the same refusals and the same outcomes, whatever the volumes are.
-/

namespace FairShare

namespace Plan
variable {l : Ledger} {plan : Plan}

/-- Resolves tiers one after the other, as long as no check fails. -/
def resolveTiers? (ledger : Ledger) : Plan → Option (List TierOutcome × Ledger)
  | [] => some ([], ledger)
  | tier :: tiers => do
    let first ← TierPlan.resolve? tier ledger
    let (rest, last) ← resolveTiers? first.ledger tiers
    some (first :: rest, last)

def settle? (config : Config) (ledger : Ledger) (plan : Plan) : Option Outcome := do
  let (tiers, last) ← plan.resolveTiers? ledger
  some ⟨tiers.flatMap (·.pairs), last.leftovers config.reportExhausted⟩

theorem resolveTiers?_eq (h : ∀ tier ∈ plan, TierPlan.Fits tier l) :
    plan.resolveTiers? l = some (plan.resolveTiers l) := by
  induction plan generalizing l with
  | nil => rfl
  | cons tier plan ih =>
    obtain ⟨htier, hplan⟩ := List.forall_mem_cons.1 h
    have hrest := ih fun t ht => (hplan t ht).resolve htier
    simp only [resolveTiers?, TierPlan.resolve?_eq htier, Option.bind_eq_bind, Option.bind_some,
      hrest]
    rfl

theorem settle?_eq (h : ∀ tier ∈ plan, TierPlan.Fits tier l) (config : Config) :
    plan.settle? config l = some (plan.settle config l) := by
  rw [settle?, resolveTiers?_eq h]
  rfl

/-- A tier fits the ledger that the tiers before it leave. -/
theorem fits_ledgerAfter (h : ∀ tier ∈ plan, TierPlan.Fits tier l) {before after : Plan}
    {tier : TierPlan} (hplan : plan = before ++ tier :: after) :
    TierPlan.Fits tier (ledgerAfter l before) := by
  subst hplan
  have hbefore := books_ledgerAfter fun t ht => h t (List.mem_append_left _ ht)
  exact (h tier (by simp)).congr hbefore.ids_eq

end Plan

/-- Matches the groups as the forest ranks them, or refuses them, if no check fails. -/
def matchGroups? (config : Config) (forest : Forest) (groups : Groups) :
    Option (Except Fault Outcome) :=
  match Ledger.ofGroups groups with
  | .error fault => some (.error fault)
  | .ok ledger =>
    match Plan.resolve ledger config.references forest with
    | .error fault => some (.error fault)
    | .ok plan => (plan.settle? config ledger).map .ok

theorem matchGroups?_eq (config : Config) (forest : Forest) (groups : Groups) :
    matchGroups? config forest groups = some (matchGroups config forest groups) := by
  unfold matchGroups? matchGroups
  cases hl : Ledger.ofGroups groups with
  | error fault => rfl
  | ok l =>
    cases hplan : Plan.resolve l config.references forest with
    | error fault => simp [bind, Except.bind, hplan]
    | ok plan =>
      obtain ⟨ha, rfl⟩ := Plan.resolve_eq_ok_iff.1 hplan
      simp [bind, Except.bind, hplan, Plan.settle?_eq (Plan.fits_of_mem ha)]

/-- No check fails in any step of any tier: nobody is overdrawn, no flow is cut, and whenever there
is nothing for all active edges there is somebody to settle. No part of a split is out of range
either. So a matching with every check made is the plain one, on all groups and forests. -/
theorem matchGroups_unclipped (config : Config) (forest : Forest) (groups : Groups) :
    (∀ l plan, Ledger.ofGroups groups = .ok l → Plan.resolve l config.references forest = .ok plan →
      ∀ before tier after, plan = before ++ tier :: after → ∀ n f,
        TierPlan.stage tier (Plan.ledgerAfter l before) n = some f →
        f.Unclipped (TierPlan.edges tier) (TierPlan.holders tier (Plan.ledgerAfter l before))) ∧
    (∀ (v : Volume) (n i : Nat), i < v.units % n → v.units / n + 1 < Volume.limit) ∧
    matchGroups? config forest groups = some (matchGroups config forest groups) := by
  refine ⟨?_, ?_, matchGroups?_eq config forest groups⟩
  · intro l plan _ hplan before tier after hsplit n f hf
    obtain ⟨ha, rfl⟩ := Plan.resolve_eq_ok_iff.1 hplan
    exact TierPlan.unclipped_stage (Plan.fits_ledgerAfter (Plan.fits_of_mem ha) hsplit) hf
  · intro v n i hi
    exact Nat.lt_of_le_of_lt (Volume.div_succ_le (Nat.zero_lt_of_lt hi)) v.units_lt

/-- The sample groups before anything is matched. -/
def sampleStart : Ledger := ⟨sampleGroups, fun side => by cases side <;> decide⟩

/-- In the second tier an entity takes part that holds all that a volume can. -/
theorem matchGroups_unclipped_sample : ∃ (first second : TierPlan) (f : Filling),
    Ledger.ofGroups sampleGroups = .ok sampleStart ∧
    Plan.resolve sampleStart .strict sampleForest = .ok ([first] ++ [second]) ∧
    second.stage (Plan.ledgerAfter sampleStart [first]) 1 = some f ∧
    f.Unclipped second.edges (second.holders (Plan.ledgerAfter sampleStart [first])) ∧
    matchGroups? .standard sampleForest sampleGroups = some (.ok sampleOutcome) := by
  obtain ⟨hsteps, -, hchecked⟩ := matchGroups_unclipped .standard sampleForest sampleGroups
  obtain ⟨l, hl, ha, -⟩ := matchGroups_eq_ok_iff.1 (matchGroups_sample .strict)
  obtain rfl : l = sampleStart := Ledger.ext hl
  have hledger := Ledger.ofGroups_eq_ok_iff.2 hl
  have hplan := Plan.resolve_eq_ok_iff.2 ⟨ha, rfl⟩
  have hstage : ((Plan.tierOf sampleStart sampleForest[1]).stage
      (Plan.ledgerAfter sampleStart [Plan.tierOf sampleStart sampleForest[0]]) 1).isSome := by
    decide +kernel
  obtain ⟨f, hf⟩ := Option.isSome_iff_exists.1 hstage
  rw [show matchGroups .standard sampleForest sampleGroups = .ok sampleOutcome from
    matchGroups_sample .strict] at hchecked
  exact ⟨_, _, f, hledger, hplan, hf, hsteps _ _ hledger hplan _ _ [] rfl 1 f hf, hchecked⟩

end FairShare
