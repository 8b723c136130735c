import FairShare.Outcome
import FairShare.Round

/-!
# Filling a tier

`Filling.run` carries out rounds until no edge of the tier is active. A `Filling` is what that
changes: the ledger, and for every edge the volume that has flowed along it. Rounds end because each
of them lowers the supply that is left.
-/

namespace FairShare

/-- The flows are those of the tier's edges, in the same order. -/
structure Filling where
  ledger : Ledger
  flows : List Volume

namespace Filling

variable (edges : List Edge) (holders : List Holder)

/-- Nothing has flowed yet. -/
def start (ledger : Ledger) : Filling := ⟨ledger, edges.map fun _ => .zero⟩

/-- Carries out a round. -/
def apply (f : Filling) (r : Round) : Filling :=
  let granted := r.grants edges f.ledger
  ⟨f.ledger.transferAll (edges.zip granted), List.zipWith Volume.addSat f.flows granted⟩

/-- The round that comes next, and the filling after it. -/
def step (f : Filling) : Option (Round × Filling) :=
  (Round.next? edges holders f.ledger).map fun r => (r, f.apply edges r)

theorem supplyLeft_step_lt {edges : List Edge} {holders : List Holder} {f next : Filling}
    {r : Round} (h : f.step edges holders = some (r, next)) :
    next.ledger.supplyLeft < f.ledger.supplyLeft := by
  obtain ⟨r', hr, he⟩ := Option.map_eq_some_iff.1 h
  obtain ⟨rfl, rfl⟩ := Prod.mk.inj he
  exact Round.supplyLeft_round_lt hr

/-- The rounds that follow, and what they lead to. -/
def run (f : Filling) : List Round × Filling :=
  match _ : f.step edges holders with
  | none => ([], f)
  | some (r, next) =>
    let (rounds, last) := run next
    (r :: rounds, last)
termination_by f.ledger.supplyLeft
decreasing_by exact supplyLeft_step_lt ‹_›

end Filling

/-- What became of a tier. -/
structure TierOutcome where
  members : Nat
  rounds : List Round
  pairs : List Match
  ledger : Ledger

namespace TierPlan

/-- The matches that flows amount to. Edges along which nothing has flowed make none. -/
def pairs (ledger : Ledger) (edges : List Edge) (flows : List Volume) : List Match :=
  (edges.zip flows).filterMap fun f =>
    if f.2.isZero then none
    else some ⟨ledger.id .demand f.1.demand, ledger.id .supply f.1.supply, f.2⟩

/-- The rounds of a tier, and the filling they lead to. -/
def fill (tier : TierPlan) (ledger : Ledger) : List Round × Filling :=
  (Filling.start tier.edges ledger).run tier.edges (tier.holders ledger)

/-- Fills a tier from what the ledger holds. -/
def resolve (tier : TierPlan) (ledger : Ledger) : TierOutcome :=
  let (rounds, last) := tier.fill ledger
  ⟨tier.length, rounds, pairs ledger tier.edges last.flows, last.ledger⟩

end TierPlan
end FairShare
