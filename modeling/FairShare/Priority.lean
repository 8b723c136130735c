/-!
# Priorities

A forest is a list of tiers, the highest first; a tier is a list of nodes of equal rank. A demand
node carries a forest of its own, which ranks the supply it wants. A node without a forest is a
leaf, and an empty forest is not the same as none.
-/

namespace FairShare

structure Node where
  id : String
  priority : Option (List (List Node))

/-- Nodes of equal rank. -/
abbrev Tier := List Node

/-- Tiers in strict order. -/
abbrev Forest := List Tier

namespace Node

def leaf (id : String) : Node := ⟨id, none⟩

/-- A node whose forest is one tier of leaves. -/
def ofPeers (id : String) (peers : List String) : Node := ⟨id, some [peers.map leaf]⟩

def isLeaf (n : Node) : Bool := n.priority.isNone

/-- The sub-tiers of a node; a leaf has none. -/
def subTiers (n : Node) : Forest := n.priority.getD []

end Node
end FairShare
