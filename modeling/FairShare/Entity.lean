import FairShare.Volume

/-!
# Entities

The two sides of a matching, and the participants on them. The same type serves for what an entity
declares, for what it still holds in the middle of a matching, and for what is left of it, so that
the leftovers of one matching can be the groups of the next.
-/

namespace FairShare

inductive Side
  | demand
  | supply
deriving DecidableEq

def Side.name : Side → String
  | demand => "demand"
  | supply => "supply"

/-- One thing for each side. -/
@[ext] structure BySide (α : Type) where
  demand : α
  supply : α
deriving DecidableEq

namespace BySide
variable {α β : Type}

def get (b : BySide α) : Side → α
  | .demand => b.demand
  | .supply => b.supply

def map (f : α → β) (b : BySide α) : BySide β := ⟨f b.demand, f b.supply⟩

def toList (b : BySide α) : List α := [b.demand, b.supply]

def ofPair (p : α × α) : BySide α := ⟨p.1, p.2⟩

@[simp] theorem get_map (f : α → β) (b : BySide α) (side : Side) :
    (b.map f).get side = f (b.get side) := by cases side <;> rfl

end BySide

/-- A participant and its volume. -/
@[ext] structure Entity where
  id : String
  volume : Volume
deriving DecidableEq

/-- The entities of the two sides, each in its order. -/
abbrev Groups := BySide (List Entity)

def Groups.empty : Groups := ⟨[], []⟩

/-- Each group followed by the one of the same side. -/
def Groups.append (g h : Groups) : Groups := ⟨g.demand ++ h.demand, g.supply ++ h.supply⟩

end FairShare
