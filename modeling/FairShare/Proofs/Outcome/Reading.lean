import FairShare.Json.Records
import FairShare.Proofs.Json.Recovery
import FairShare.Proofs.Volume.Printing

/-!
# A written outcome is read as that outcome

Volumes are recovered from their digits, and entities, groups, matches and outcomes from their parts.
An outcome nests four levels deep, so no reader finds it too deep. Its two keys are the only ones that
change places on the way to its value.
-/

namespace FairShare

open Json Decoder

variable {depth : Nat}

theorem Volume.recovers (v : Volume) : Volume.decode.Recovers depth v.toJson v := by
  have hread : ∀ route d, Volume.decode route d v.toJson = .ok v := by
    intro route d
    have htext : volumeText route d v.toJson = .ok v.text := by cases route <;> rfl
    simp only [Volume.decode, htext, bind, Except.bind, ofText_text]
    rfl
  exact ⟨.string _, fun d _ => hread .text d, fun d _ => ⟨v.toJson, rfl, hread .value d⟩⟩

theorem Entity.recovers (name : String) (e : Entity) :
    (decodeAs name Volume.decode Entity.mk).Recovers (depth + 1) e.toJson e :=
  .record (by decide) (by decide) (by decide) (by decide) (.string e.id) e.volume.recovers

theorem Groups.recovers (name : String) (g : Groups) :
    (decodeWith (Entity.decodeAs name Volume.decode Entity.mk)).Recovers (depth + 3)
      (Groups.toJson g) g :=
  .map BySide.ofPair (.pair (.list fun e _ => e.recovers name) (.list fun e _ => e.recovers name))

theorem Match.recovers (m : Match) : Match.decode.Recovers (depth + 2) m.toJson m :=
  .record (a := (m.demand, m.supply)) (by decide) (by decide) (by decide) (by decide)
    (.pair (.string m.demand) (.string m.supply)) m.volume.recovers

-- What needs no escape is written as it is, and so are characters beyond ASCII.
example : (Match.toJson ⟨"a\"\\", "\x01é", .clamp 5⟩).compact =
    "\x7b\"entities\":[\"a\\\"\\\\\",\"\\u0001é\"],\"volume\":\"5\"\x7d" := by
  decide

theorem Outcome.recovers (o : Outcome) : Outcome.decode.Recovers 4 o.toJson o :=
  .record (by decide) (by decide) (by decide) (by decide) (.list fun m _ => m.recovers)
    (Groups.recovers "LeftoverEntity" o.leftovers)

/-- Whatever its ids and volumes are, an outcome that is written, in either layout, is read again as
what it is: as a text, as the value of that text, and from the value without a text in between. -/
theorem Outcome.read_toJson (o : Outcome) :
    (readText Outcome.decode o.toJson.compact = .ok o ∧
      readValue Outcome.decode o.toJson.compact = .ok o) ∧
    (readText Outcome.decode o.toJson.pretty = .ok o ∧
      readValue Outcome.decode o.toJson.pretty = .ok o) ∧
    ∃ v, valueOf? o.toJson = some v ∧ decodeValue Outcome.decode v = .ok o := by
  have hdepth : 4 ≤ maxDepth := by decide
  exact ⟨o.recovers.read_compact hdepth, o.recovers.read_pretty hdepth,
    o.recovers.value maxDepth hdepth⟩

end FairShare
