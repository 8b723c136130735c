import FairShare.Config
import FairShare.Json.Decode
import FairShare.Outcome
import FairShare.Priority

/-!
# Records in JSON

How the parts of a request and of its answer are written and read. A volume is written as a string
of digits and read from any spelling of it. Demand comes before supply: the two groups are an array
of two, and so are the two ids of a match.
-/

namespace FairShare

open Json

/-! ## Entities -/

namespace Volume

def toJson (v : Volume) : Json := ofString v.text

def decode : Decoder Volume := fun route depth j => do
  let s ← Decoder.volumeText route depth j
  (ofText s).mapError .badVolume

end Volume

def Side.toJson (s : Side) : Json := ofString s.name

def Side.decode : Decoder Side := .choice [("demand", .demand), ("supply", .supply)]

namespace Entity

def toJson (e : Entity) : Json := ofFields [("id", ofString e.id), ("volume", e.volume.toJson)]

/-- A record of this name with an id and a volume, the volume being read by `volume`. -/
def decodeAs {α β : Type} (name : String) (volume : Decoder α) (make : String → α → β) :
    Decoder β :=
  .record name (.required "id" .string) (.required "volume" volume) make

def decode : Decoder Entity := decodeAs "Entity" Volume.decode .mk

end Entity

namespace Groups

def toJson (g : Groups) : Json := .array ((g.map fun es => .array (es.map Entity.toJson)).toList)

/-- Two lists of what `entity` reads. -/
def decodeWith {α : Type} (entity : Decoder α) : Decoder (BySide (List α)) := fun route depth j =>
  BySide.ofPair <$> Decoder.pair (.list entity) route depth j

def decode : Decoder Groups := decodeWith Entity.decode

end Groups

/-!
## Priorities

A node is a record of its id and, unless it is a leaf, its forest. The forest may be given under
either of two keys. Each node is nested deeper than the one that holds it, so the levels that may
still be entered also bound the reading of forests within forests.
-/

namespace Node

/-- Reads nodes that hold one another at most `levels` deep. -/
def decodeWithin : Nat → Decoder Node
  | 0 => fun _ _ _ => .error .tooDeep
  | levels + 1 =>
    .record "PriorityNode" (.required "id" .string)
      ⟨["priority", "subPriority"], .nullable (.list (.list (decodeWithin levels))), some none⟩ .mk

def decode : Decoder Node := fun route depth j => decodeWithin (depth + 1) route depth j

end Node

def Tier.decode : Decoder Tier := .list Node.decode

def Forest.decode : Decoder Forest := .list Tier.decode

mutual

def Node.toJson : Node → Json
  | ⟨id, none⟩ => ofFields [("id", ofString id)]
  | ⟨id, some forest⟩ => ofFields [("id", ofString id), ("priority", .array (Forest.items forest))]

def Forest.items : List (List Node) → List Json
  | [] => []
  | tier :: tiers => .array (Tier.items tier) :: Forest.items tiers

def Tier.items : List Node → List Json
  | [] => []
  | node :: nodes => node.toJson :: Tier.items nodes

end

def Forest.toJson (f : Forest) : Json := .array (Forest.items f)

/-! ## Configurations -/

def Policy.decode : Decoder Policy :=
  .choice [("strict", .strict), ("lenient", .lenient)]

def Policy.toJson (p : Policy) : Json := ofString p.name

namespace Config

/-- Both fields may be missing and then have the standard value. -/
def decode : Decoder Config :=
  .record "MatcherConfig" (.optional "references" Policy.decode standard.references)
    (.optional "report_exhausted" .boolean standard.reportExhausted) .mk

def toJson (c : Config) : Json :=
  ofFields [("references", c.references.toJson), ("report_exhausted", .boolean c.reportExhausted)]

end Config

/-! ## Outcomes -/

namespace Match

def toJson (m : Match) : Json :=
  ofFields [("entities", .array [ofString m.demand, ofString m.supply]),
    ("volume", m.volume.toJson)]

def decode : Decoder Match :=
  .record "Match" (.required "entities" (.pair .string)) (.required "volume" Volume.decode)
    fun ids volume => ⟨ids.1, ids.2, volume⟩

end Match

namespace Outcome

/-- An entity among the leftovers. -/
def decodeLeftover : Decoder Entity := Entity.decodeAs "LeftoverEntity" Volume.decode .mk

def toJson (o : Outcome) : Json :=
  ofFields [("matches", .array (o.pairs.map Match.toJson)),
    ("leftoverEntities", o.leftovers.toJson)]

def decode : Decoder Outcome :=
  .record "MatchResult" (.required "matches" (.list Match.decode))
    (.required "leftoverEntities" (Groups.decodeWith decodeLeftover)) .mk

end Outcome
end FairShare
