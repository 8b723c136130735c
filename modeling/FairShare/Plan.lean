import FairShare.Config
import FairShare.Ledger
import FairShare.Priority

/-!
# Plans

A plan is a forest with the ids replaced by slots of a ledger: for every tier its demand entities,
and for each of them the supply it wants, sub-tier by sub-tier. Planning stops at the first fault of
the forest, so a forest that has a plan has none. Under the lenient policy it passes over what it
does not know, and a `Survey` keeps what was passed over next to how the planning ended, also where
it ended in a fault.
-/

namespace FairShare

/-- A demand slot, and the supply slots that it wants, the preferred ones first. -/
structure Member where
  demand : Nat
  targets : List (List Nat)
deriving DecidableEq

/-- The demand entities of equal rank. -/
abbrev TierPlan := List Member

abbrev Plan := List TierPlan

def Plan.memberCount (p : Plan) : Nat := p.foldl (fun n tier => n + tier.length) 0

/-- An id that a forest mentions. -/
structure Reference where
  side : Side
  id : String
deriving DecidableEq

/-- The references passed over on the way, and how the way ended. -/
structure Survey (α : Type) where
  skipped : List Reference
  outcome : Except Fault α

namespace Survey
variable {α β : Type}

def bind (x : Survey α) (f : α → Survey β) : Survey β :=
  match x.outcome with
  | .error e => ⟨x.skipped, .error e⟩
  | .ok a => ⟨x.skipped ++ (f a).skipped, (f a).outcome⟩

instance : Monad Survey where
  pure a := ⟨[], .ok a⟩
  bind := bind

def fail (e : Fault) : Survey α := ⟨[], .error e⟩

@[simp] theorem outcome_pure (a : α) : (pure a : Survey α).outcome = .ok a := rfl

@[simp] theorem outcome_fail (e : Fault) : (fail e : Survey α).outcome = .error e := rfl

theorem outcome_bind (x : Survey α) (f : α → Survey β) :
    (x >>= f).outcome = x.outcome.bind fun a => (f a).outcome := by
  change (bind x f).outcome = _
  unfold bind
  cases x.outcome <;> rfl

end Survey

namespace Plan

variable (ledger : Ledger) (policy : Policy)

/-- The slot of an id. An unknown id is a fault or, under the lenient policy, nothing. -/
def lookup (side : Side) (id : String) : Survey (Option Nat) :=
  match ledger.position side id, policy with
  | some pos, _ => pure (some pos)
  | none, .lenient => ⟨[⟨side, id⟩], .ok none⟩
  | none, .strict => .fail (.danglingReference side id)

/-- The supply slots of a sub-tier, those in `taken` having come before. -/
def peers (taken : List Nat) : List Node → Survey (List Nat)
  | [] => pure []
  | node :: nodes =>
    if node.isLeaf then do
      match ← lookup ledger policy .supply node.id with
      | none => peers taken nodes
      | some slot =>
        if slot ∈ taken then .fail (.duplicatePeer node.id)
        else do
          let rest ← peers (slot :: taken) nodes
          pure (slot :: rest)
    else .fail (.unsupportedNesting node.id)

/-- The sub-tiers of a node, without those in which nobody is known. -/
def targets : List Tier → Survey (List (List Nat))
  | [] => pure []
  | tier :: tiers => do
    let slots ← peers ledger policy [] tier
    let rest ← targets tiers
    pure (if slots.isEmpty then rest else slots :: rest)

/-- The members of a tier, the demand slots in `taken` having come before. -/
def members (taken : List Nat) : List Node → Survey TierPlan
  | [] => pure []
  | node :: nodes => do
    match ← lookup ledger policy .demand node.id with
    | none => members taken nodes
    | some slot =>
      if slot ∈ taken then .fail (.duplicatePeer node.id)
      else do
        let wanted ← targets ledger policy node.subTiers
        let rest ← members (slot :: taken) nodes
        pure (⟨slot, wanted⟩ :: rest)

def survey : Forest → Survey Plan
  | [] => pure []
  | tier :: tiers => do
    let first ← members ledger policy [] tier
    let rest ← survey tiers
    pure (first :: rest)

/-- The plan of a forest, or its first fault. -/
def resolve (forest : Forest) : Except Fault Plan := (survey ledger policy forest).outcome

end Plan
end FairShare
