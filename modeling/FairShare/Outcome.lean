import FairShare.Entity

/-!
# Outcomes

What a matching comes to: the pairs that exchanged volume, and what is left on each side.
-/

namespace FairShare

/-- Volume that went from a supply entity to a demand entity. -/
@[ext] structure Match where
  demand : String
  supply : String
  volume : Volume
deriving DecidableEq

/-- The entity of the match on a side. -/
def Match.entity (m : Match) : Side → String
  | .demand => m.demand
  | .supply => m.supply

@[ext] structure Outcome where
  pairs : List Match
  leftovers : Groups
deriving DecidableEq

namespace Outcome

def empty : Outcome := ⟨[], Groups.empty⟩

def matchedVolume (o : Outcome) : Volume := Volume.total (o.pairs.map (·.volume))

def leftoverVolume (o : Outcome) (side : Side) : Volume :=
  Volume.total ((o.leftovers.get side).map (·.volume))

/-- What an entity took part in exchanging. -/
def matchedFor (o : Outcome) (side : Side) (id : String) : Volume :=
  Volume.total ((o.pairs.filter (·.entity side == id)).map (·.volume))

/-- What is left of an entity: nothing when it is not listed. -/
def leftoverFor (o : Outcome) (side : Side) (id : String) : Volume :=
  match (o.leftovers.get side).find? (·.id == id) with
  | some e => e.volume
  | none => .zero

end Outcome
end FairShare
