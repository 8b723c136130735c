/-!
# Configuration

What a matching does about ids that it does not know, and whether it lists entities of which nothing
is left. By default it refuses the ids and does not list the entities.
-/

namespace FairShare

/-- What to do about a node that names an entity nobody declared. -/
inductive Policy
  | strict
  | lenient
deriving DecidableEq

def Policy.name : Policy → String
  | strict => "strict"
  | lenient => "lenient"

structure Config where
  references : Policy
  reportExhausted : Bool
deriving DecidableEq

namespace Config

def standard : Config := ⟨.strict, false⟩

/-- Passes over unknown ids and lists every entity. -/
def compatible : Config := ⟨.lenient, true⟩

def withReferences (c : Config) (references : Policy) : Config := { c with references }

def withReportExhausted (c : Config) (reportExhausted : Bool) : Config := { c with reportExhausted }

end Config
end FairShare
