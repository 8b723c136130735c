import FairShare.Json.Records
import FairShare.Matching

/-!
# Requests

What a matching is asked for: a forest and two groups. A request is read from JSON in one of two
ways. `decode` wants both fields and refuses a bad volume where it stands. `ofText` lets either
field be missing, reads the structure of the whole text first and the volumes after that, so that a
bad volume is told apart from a text that is no request.
-/

namespace FairShare

open Json

structure Request where
  priority : Forest
  groups : Groups

inductive RequestError
  | invalidVolume (cause : VolumeError)
  | malformed (cause : ReadError)

def RequestError.message : RequestError → String
  | invalidVolume cause => "invalid volume: " ++ cause.message
  | malformed cause => "malformed request: " ++ cause.message

namespace Request

def toJson (r : Request) : Json :=
  ofFields [("priority", Forest.toJson r.priority), ("entityGroups", r.groups.toJson)]

def decode : Decoder Request :=
  .record "MatchRequest" (.required "priority" Forest.decode)
    (.required "entityGroups" Groups.decode) .mk

/-- An entity whose volume is still a text. -/
structure Draft where
  id : String
  volume : String

def Draft.decode : Decoder Draft := Entity.decodeAs "WireEntity" .volumeText .mk

def Draft.entity (d : Draft) : Except VolumeError Entity := do
  let v ← Volume.ofText d.volume
  .ok ⟨d.id, v⟩

/-- A request whose volumes are still texts. -/
def decodeDraft : Decoder (Forest × BySide (List Draft)) :=
  .record "WireRequest" (.optional "priority" Forest.decode [])
    (.optional "entityGroups" (Groups.decodeWith Draft.decode) ⟨[], []⟩) .mk

/-- Reads the volumes in order, up to the first that is none. -/
def entities : List Draft → Except VolumeError (List Entity)
  | [] => .ok []
  | d :: ds => do
    let e ← d.entity
    let es ← entities ds
    .ok (e :: es)

def groupsOf (drafts : BySide (List Draft)) : Except VolumeError Groups := do
  let demand ← entities drafts.demand
  let supply ← entities drafts.supply
  .ok ⟨demand, supply⟩

def ofText (s : String) : Except RequestError Request :=
  match readText decodeDraft s with
  | .error cause => .error (.malformed cause)
  | .ok (priority, drafts) =>
    match groupsOf drafts with
    | .error cause => .error (.invalidVolume cause)
    | .ok groups => .ok ⟨priority, groups⟩

def run (config : Config) (r : Request) : Except Fault Outcome :=
  matchGroups config r.priority r.groups

end Request
end FairShare
