import FairShare.Filling

/-!
# Matching

A matching resolves the tiers of a forest strictly in order, each on the ledger that the tiers
before it left. Groups and forest are checked first, so a matching that is refused moves nothing.
-/

namespace FairShare

/-- Resolves tiers one after the other; the ledger is the one they leave. -/
def Plan.resolveTiers (ledger : Ledger) : Plan → List TierOutcome × Ledger
  | [] => ([], ledger)
  | tier :: tiers =>
    let first := TierPlan.resolve tier ledger
    let (rest, last) := resolveTiers first.ledger tiers
    (first :: rest, last)

/-- The outcome of a plan on a ledger. -/
def Plan.settle (config : Config) (ledger : Ledger) (plan : Plan) : Outcome :=
  let (tiers, last) := plan.resolveTiers ledger
  ⟨tiers.flatMap (·.pairs), last.leftovers config.reportExhausted⟩

/-- Matches the groups as the forest ranks them. -/
def matchGroups (config : Config) (forest : Forest) (groups : Groups) : Except Fault Outcome := do
  let ledger ← Ledger.ofGroups groups
  let plan ← Plan.resolve ledger config.references forest
  .ok (plan.settle config ledger)

end FairShare
