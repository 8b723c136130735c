import FairShare.Json
import FairShare.Json.Text

/-!
# Reading JSON

A text is cut into tokens and the tokens are put together by a machine with a stack of the
containers that are still open. Both recurse on their input. Nesting of any depth is read here; how
deep a reader goes is decided where values are decoded.
-/

namespace FairShare.Json

inductive Token
  | openArray | closeArray | openObject | closeObject | comma | colon
  | text (content : Option String)
  | scalar (value : Json)

/-- Space, tab, line feed and carriage return. -/
def isBlank (c : Char) : Bool := c == ' ' || c == '\t' || c == '\n' || c == '\r'

/-- The one-character token that `c` is. -/
def mark? (c : Char) : Option Token :=
  if c = '[' then some .openArray
  else if c = ']' then some .closeArray
  else if c = '\x7b' then some .openObject
  else if c = '\x7d' then some .closeObject
  else if c = ',' then some .comma
  else if c = ':' then some .colon
  else none

/-- A word or a number. -/
def bareToken? (cs : List Char) : Option Token :=
  if cs = ['n', 'u', 'l', 'l'] then some (.scalar .null)
  else if cs = ['t', 'r', 'u', 'e'] then some (.scalar (.boolean true))
  else if cs = ['f', 'a', 'l', 's', 'e'] then some (.scalar (.boolean false))
  else (Numeral.ofChars? cs).map fun n => .scalar (.number n)

def quotedToken? (body : List Char) : Option Token :=
  (units body).map fun us => .text ((join us).map String.ofList)

/-- Where a scan stands. The characters of an unfinished token are kept in reverse. -/
inductive Scan
  | between
  | bare (seen : List Char)
  | quoted (seen : List Char)
  | escaped (seen : List Char)

/-- The tokens of a text. A bare token ends before the next blank, mark or quotation mark. -/
def tokens : Scan → List Char → Option (List Token)
  | .between, [] => some []
  | .bare seen, [] => do some [← bareToken? seen.reverse]
  | .quoted _, [] => none
  | .escaped _, [] => none
  | .between, c :: cs =>
    if isBlank c then tokens .between cs
    else if c = '"' then tokens (.quoted []) cs
    else match mark? c with
      | some t => (t :: ·) <$> tokens .between cs
      | none => tokens (.bare [c]) cs
  | .bare seen, c :: cs =>
    if isBlank c then do
      let t ← bareToken? seen.reverse
      (t :: ·) <$> tokens .between cs
    else if c = '"' then do
      let t ← bareToken? seen.reverse
      (t :: ·) <$> tokens (.quoted []) cs
    else match mark? c with
      | some m => do
        let t ← bareToken? seen.reverse
        (t :: m :: ·) <$> tokens .between cs
      | none => tokens (.bare (c :: seen)) cs
  | .quoted seen, c :: cs =>
    if c = '"' then do
      let t ← quotedToken? seen.reverse
      (t :: ·) <$> tokens .between cs
    else if c = '\\' then tokens (.escaped (c :: seen)) cs
    else if c.toNat < 0x20 then none
    else tokens (.quoted (c :: seen)) cs
  | .escaped seen, c :: cs => tokens (.quoted (c :: seen)) cs

/-- An open container: what it holds so far, in reverse, and the key that waits for its value. -/
inductive Frame
  | items (done : List Json)
  | fields (done : List (Option String × Json))
  | entry (done : List (Option String × Json)) (key : Option String)

/-- What has to come next; the list holds the open containers, innermost first. -/
inductive Goal
  | value (stack : List Frame)
  | firstItem (stack : List Frame)
  | firstKey (stack : List Frame)
  | key (done : List (Option String × Json)) (stack : List Frame)
  | colon (stack : List Frame)
  | separator (stack : List Frame)
  | complete (value : Json)

/-- Hands a finished value to the innermost container. -/
def deliver (v : Json) : List Frame → Goal
  | [] => .complete v
  | .items done :: stack => .separator (.items (v :: done) :: stack)
  | .entry done k :: stack => .separator (.fields ((k, v) :: done) :: stack)
  | .fields done :: stack => .separator (.fields done :: stack)

def beginValue (stack : List Frame) : Token → Option Goal
  | .text s => some (deliver (.string s) stack)
  | .scalar v => some (deliver v stack)
  | .openArray => some (.firstItem stack)
  | .openObject => some (.firstKey stack)
  | _ => none

def Goal.step : Goal → Token → Option Goal
  | .value stack, t => beginValue stack t
  | .firstItem stack, .closeArray => some (deliver (.array []) stack)
  | .firstItem stack, t => beginValue (.items [] :: stack) t
  | .firstKey stack, .closeObject => some (deliver (.object []) stack)
  | .firstKey stack, .text k => some (.colon (.entry [] k :: stack))
  | .key done stack, .text k => some (.colon (.entry done k :: stack))
  | .colon stack, .colon => some (.value stack)
  | .separator (.items done :: stack), .comma => some (.value (.items done :: stack))
  | .separator (.items done :: stack), .closeArray => some (deliver (.array done.reverse) stack)
  | .separator (.fields done :: stack), .comma => some (.key done stack)
  | .separator (.fields done :: stack), .closeObject => some (deliver (.object done.reverse) stack)
  | _, _ => none

def Goal.run : Goal → List Token → Option Json
  | .complete v, [] => some v
  | _, [] => none
  | goal, t :: ts => do (← goal.step t).run ts

/-- The tree that a text spells, if it is JSON. -/
def ofChars? (cs : List Char) : Option Json := do (Goal.value []).run (← tokens .between cs)

def ofText? (s : String) : Option Json := ofChars? s.toList

end FairShare.Json
