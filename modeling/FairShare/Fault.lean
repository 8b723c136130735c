import FairShare.Entity

/-!
# Faults

Why groups and a forest cannot be matched. Every fault is found before any volume moves.
-/

namespace FairShare

inductive Fault
  | duplicateEntity (side : Side) (id : String)
  | danglingReference (side : Side) (id : String)
  | duplicatePeer (id : String)
  | unsupportedNesting (id : String)
deriving DecidableEq

def Fault.message : Fault → String
  | duplicateEntity side id => "duplicate " ++ side.name ++ " entity `" ++ id ++ "`"
  | danglingReference side id =>
    "priority forest references unknown " ++ side.name ++ " entity `" ++ id ++ "`"
  | duplicatePeer id => "`" ++ id ++ "` appears more than once among the peers of a single tier"
  | unsupportedNesting id =>
    "supply entity `" ++ id ++ "` carries a nested priority forest; "
      ++ "only demand -> supply nesting is supported"

end FairShare
