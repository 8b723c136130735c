import FairShare.Binary64
import FairShare.Json

/-!
# JSON values

`value? depth j` is the value that a tree stands for: every string has content, no container is
nested more than `depth` deep, an object has each key once (the last one written) and its keys are
in order. An object whose first key is `numberKey` is another spelling of a number and has to be
exactly that. A tree that has a value is what counts as valid JSON.

A number that has been read into a value is kept as it was spelled, with one exception
(`Numeral.storedText`). Where it is spelled as the shortest form of a binary floating-point number,
with a fraction or an exponent, it counts as that number and is written out again in positional
notation: `1e+3` stays, `-1.0` becomes `-1`, and `1e-7` becomes `0.0000001`. An integer has no sign
when it is zero.
-/

namespace FairShare

namespace Json

/-- The nesting that a reader goes into. -/
def maxDepth : Nat := 127

/-- The key under which a number may be given as a string. -/
def numberKey : String := "$serde_json::private::Number"

/-- Puts an entry where its key belongs, in place of one with the same key. -/
def insertField (k : String) (v : Json) : List (String × Json) → List (String × Json)
  | [] => [(k, v)]
  | f :: fs =>
    if k < f.1 then (k, v) :: f :: fs
    else if k = f.1 then (k, v) :: fs
    else f :: insertField k v fs

def sortFields (fs : List (String × Json)) : List (String × Json) :=
  fs.foldl (fun sorted f => insertField f.1 f.2 sorted) []

/-- The number that an object with the number key stands for. -/
def taggedNumber? : List (Option String × Json) → Option Json
  | [(_, .string (some s))] => (Numeral.ofChars? s.toList).map .number
  | _ => none

def startsTagged : List (Option String × Json) → Bool
  | (k, _) :: _ => k == some numberKey
  | [] => false

mutual

def value? (depth : Nat) : Json → Option Json
  | .string none => none
  | .array items => if depth = 0 then none else .array <$> values? (depth - 1) items
  | .object fields =>
    if depth = 0 then none
    else if startsTagged fields then taggedNumber? fields
    else (fun fs => ofFields (sortFields fs)) <$> fieldValues? (depth - 1) fields
  | j => some j

def values? (depth : Nat) : List Json → Option (List Json)
  | [] => some []
  | j :: js => do
    let v ← value? depth j
    let vs ← values? depth js
    some (v :: vs)

def fieldValues? (depth : Nat) : List (Option String × Json) → Option (List (String × Json))
  | [] => some []
  | (none, _) :: _ => none
  | (some k, j) :: fs => do
    let v ← value? depth j
    let vs ← fieldValues? depth fs
    some ((k, v) :: vs)

end

/-- The value of a whole text. -/
def valueOf? (j : Json) : Option Json := value? maxDepth j

end Json

/-! ## The text of a stored number -/

namespace Numeral

/-- Digits and power of ten, the point and the exponent worked in. -/
def scaled (n : Numeral) : ScaledDigits :=
  let shift : Int := match n.exponent with
    | none => 0
    | some (true, digits) => -(Text.ofDigits digits : Int)
    | some (false, digits) => (Text.ofDigits digits : Int)
  ⟨Text.ofDigits (n.whole ++ n.fraction), shift - n.fraction.length⟩

/-- The shortest form with a fraction or an exponent, and the one in positional notation. -/
def floatForms? (x : ScaledDigits) : Option (List Char × List Char) :=
  if x.digits = 0 then some (['0', '.', '0'], ['0'])
  else do
    let f ← Binary64.nearest? x
    if f.mantissa = 0 then none
    else some ((f.shortest .toEven).fractional, (f.shortest .up).positional)

def isInteger (n : Numeral) : Bool := n.fraction.isEmpty && n.exponent.isNone

/-- The text that a stored number is handed on as. -/
def storedText (n : Numeral) : String :=
  if n.isInteger then
    if n.whole = ['0'] then "0" else n.text
  else
    let sign := if n.negative then ['-'] else []
    match floatForms? n.scaled with
    | some (fractional, positional) =>
      if n.chars = sign ++ fractional then String.ofList (sign ++ positional) else n.text
    | none => n.text

end Numeral
end FairShare
