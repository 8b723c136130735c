import FairShare.Matching

/-!
# Events

What can be said about a matching while it goes on: which references were passed over, each round
of each tier, and counts of what came of it. The events of a matching are a list, computed next to
its outcome; a matching that is refused has the events up to the fault.
-/

namespace FairShare

inductive Level
  | trace
  | debug
deriving DecidableEq

def Level.name : Level → String
  | trace => "TRACE"
  | debug => "DEBUG"

inductive Event
  | skipped (reference : Reference)
  | started (tiers members demand supply : Nat)
  | round (number : Nat) (round : Round)
  | tierResolved (members rounds pairs : Nat) (matched : Volume)
  | tierComplete (tier pairs : Nat)
  | finished (pairs : Nat) (matched : Volume) (leftover excess : Nat)

def Holder.text : Holder → String
  | member index _ => "Member(" ++ toString index ++ ")"
  | supply slot => "Supply(" ++ toString slot ++ ")"

namespace Event

def level : Event → Level
  | round _ _ => .trace
  | _ => .debug

def message : Event → String
  | skipped _ => "skipping unknown entity in priority forest"
  | started .. => "spread matching started"
  | round _ (.uniform ..) => "uniform increment"
  | round _ (.settle ..) => "settling remainder"
  | tierResolved .. => "tier resolved"
  | tierComplete .. => "tier complete"
  | finished .. => "spread matching finished"

/-- The details of an event, by name. -/
def details : Event → List (String × String)
  | skipped r => [("side", r.side.name), ("id", r.id)]
  | started tiers members demand supply =>
    [("tiers", toString tiers), ("members", toString members), ("demand", toString demand),
      ("supply", toString supply)]
  | round n (.uniform edges increment) =>
    [("round", toString n), ("edges", toString edges), ("increment", increment.text)]
  | round n (.settle holder held peers) =>
    [("round", toString n), ("holder", holder.text), ("remaining", held.text),
      ("peers", toString peers)]
  | tierResolved members rounds pairs matched =>
    [("members", toString members), ("rounds", toString rounds), ("matches", toString pairs),
      ("matched", matched.text)]
  | tierComplete tier pairs => [("tier", toString tier), ("matches", toString pairs)]
  | finished pairs matched leftover excess =>
    [("matches", toString pairs), ("matched", matched.text), ("leftover", toString leftover),
      ("excess", toString excess)]

/-- The events of one tier, `index` being its place in the forest. -/
def ofTier (index : Nat) (t : TierOutcome) : List Event :=
  t.rounds.zipIdx.map (fun r => .round (r.2 + 1) r.1)
    ++ [.tierResolved t.members t.rounds.length t.pairs.length
          (Volume.total (t.pairs.map (·.volume))),
        .tierComplete index t.pairs.length]

def ofOutcome (o : Outcome) : Event :=
  .finished o.pairs.length o.matchedVolume o.leftovers.demand.length o.leftovers.supply.length

/-- The events of a plan that is carried out. -/
def ofPlan (config : Config) (ledger : Ledger) (plan : Plan) : List Event :=
  let tiers := (plan.resolveTiers ledger).1
  .started plan.length plan.memberCount (ledger.size .demand) (ledger.size .supply)
    :: tiers.zipIdx.flatMap (fun t => ofTier t.2 t.1)
    ++ [ofOutcome (plan.settle config ledger)]

/-- The events of a matching. -/
def ofMatching (config : Config) (forest : Forest) (groups : Groups) : List Event :=
  match Ledger.ofGroups groups with
  | .error _ => []
  | .ok ledger =>
    let survey := Plan.survey ledger config.references forest
    survey.skipped.map .skipped ++ match survey.outcome with
      | .error _ => []
      | .ok plan => ofPlan config ledger plan

end Event
end FairShare
