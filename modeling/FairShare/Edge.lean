import FairShare.Ledger
import FairShare.Plan

/-!
# Edges

An edge is one place in a tier where a demand entity names a supply entity. It is active while both
ends still hold something and everything that the demand entity prefers to this supply is used up.
Supply never grows, so an edge becomes active at most once and, once it no longer is, stays
inactive, and a cursor over the sub-tiers of each member finds the active edges as well
(`TierPlan.edgesAt_advance`). A `Holder` is an end of edges: it owns those that draw on what it holds.
-/

namespace FairShare

/-- `member` is the index in the tier, `demand` and `supply` are slots, and `ahead` are the supply
slots in the sub-tiers before that of this edge. -/
structure Edge where
  member : Nat
  demand : Nat
  supply : Nat
  ahead : List Nat
deriving DecidableEq

def Edge.isActive (ledger : Ledger) (e : Edge) : Bool :=
  ledger.isLive .demand e.demand && ledger.isLive .supply e.supply
    && e.ahead.all fun s => !ledger.isLive .supply s

/-- The edges of one member, in its order of preference. -/
def edgesFrom (member demand : Nat) (ahead : List Nat) : List (List Nat) → List Edge
  | [] => []
  | peers :: rest =>
    peers.map (fun s => ⟨member, demand, s, ahead⟩) ++ edgesFrom member demand (ahead ++ peers) rest

/-- The edges of a tier, member by member. -/
def TierPlan.edges (tier : TierPlan) : List Edge :=
  tier.zipIdx.flatMap fun m => edgesFrom m.2 m.1.demand [] m.1.targets

/-- A member of the tier, by its index and its slot, or a supply slot. -/
inductive Holder
  | member (index demand : Nat)
  | supply (slot : Nat)
deriving DecidableEq

namespace Holder

def owns : Holder → Edge → Bool
  | member i d, e => e.member == i && e.demand == d
  | supply s, e => e.supply == s

def remaining (ledger : Ledger) : Holder → Volume
  | member _ d => ledger.remaining .demand d
  | supply s => ledger.remaining .supply s

/-- How many of the edges a holder owns. -/
def degree (edges : List Edge) (h : Holder) : Nat := edges.countP h.owns

end Holder

/-- Everybody who can hold something in a tier: its members in order, then the supply slots. -/
def TierPlan.holders (tier : TierPlan) (ledger : Ledger) : List Holder :=
  tier.zipIdx.map (fun m => .member m.2 m.1.demand)
    ++ (List.range (ledger.size .supply)).map .supply

end FairShare
