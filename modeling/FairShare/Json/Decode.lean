import FairShare.Json.Reader
import FairShare.Json.Value
import FairShare.Text
import FairShare.Volume

/-!
# Decoding JSON

A decoder turns a tree into a thing of the domain or says why it cannot. It runs on one of two
routes: on the `text` as it is written, or on the `value` that the text stands for. Both accept the
same shapes; where they refuse, some words differ. On a text the entries of an object are taken in
the order in which they are written, and an entry that nobody asked for is passed over unread.
-/

namespace FairShare.Json

inductive Route
  | text
  | value
deriving DecidableEq

/-- What a refusal says was found. -/
inductive Shape
  | null
  | boolean (value : Bool)
  | integer (digits : String)
  | number
  | string (content : String)
  | array
  | object

/-- What a refusal says was wanted. -/
inductive Expectation
  | string
  | boolean
  | array
  | null
  | pair
  | record (name : String)
  | elements (name : String)
  | volume
  | stringOrObject
  | fewerItems
  | fewerFields

/-- Why a tree is not what a decoder wants. -/
inductive DecodeError
  | wrongType (found : Shape) (wanted : Expectation)
  | wrongLength (length : Nat) (wanted : Expectation)
  | missingField (name : String)
  | duplicateField (name : String)
  | unknownField (name known : String)
  | unknownChoice (name : String) (known : List String)
  | notOneField
  | surplusItems
  | noChoice
  | badVolume (cause : VolumeError)
  | tooDeep
  | noContent

def Shape.text : Shape → String
  | null => "null"
  | boolean b => "boolean `" ++ (if b then "true" else "false") ++ "`"
  | integer n => "integer `" ++ n ++ "`"
  | number => "number"
  | string s => "string " ++ Text.quote s
  | array => "sequence"
  | object => "map"

def Expectation.text : Expectation → String
  | string => "a string"
  | boolean => "a boolean"
  | array => "a sequence"
  | null => "unit"
  | pair => "an array of length 2"
  | record name => "struct " ++ name
  | elements name => "struct " ++ name ++ " with 2 elements"
  | volume => "a non-negative integer or a decimal string"
  | stringOrObject => "string or map"
  | fewerItems => "fewer elements in array"
  | fewerFields => "fewer elements in map"

/-- Two names, or one, each between backquotes. -/
def alternatives (names : List String) : String :=
  String.intercalate " or " (names.map fun n => "`" ++ n ++ "`")

def DecodeError.message : DecodeError → String
  | wrongType found wanted => "invalid type: " ++ found.text ++ ", expected " ++ wanted.text
  | wrongLength n wanted => "invalid length " ++ toString n ++ ", expected " ++ wanted.text
  | missingField name => "missing field `" ++ name ++ "`"
  | duplicateField name => "duplicate field `" ++ name ++ "`"
  | unknownField name known => "unknown field `" ++ name ++ "`, expected `" ++ known ++ "`"
  | unknownChoice name known => "unknown variant `" ++ name ++ "`, expected " ++ alternatives known
  | notOneField => "invalid value: map, expected map with a single key"
  | surplusItems => "trailing characters"
  | noChoice => "expected value"
  | badVolume cause => cause.message
  | tooDeep => "recursion limit exceeded"
  | noContent => "lone leading surrogate in hex escape"

/-- Whether 64 bits hold the number, with a sign only if it is below zero. -/
def isWord (n : Numeral) : Bool :=
  let magnitude := Text.ofDigits n.whole
  n.isInteger && if n.negative then 0 < magnitude && magnitude ≤ 9223372036854775808
    else magnitude < 18446744073709551616

/-- On the text route a number of 64 bits is named by its digits; no other number is. -/
def numberShape (route : Route) (n : Numeral) : Shape :=
  if route = .text ∧ isWord n then .integer n.text else .number

def shape (route : Route) : Json → Shape
  | .null => .null
  | .boolean b => .boolean b
  | .number n => numberShape route n
  | .string s => .string (s.getD "")
  | .array _ => .array
  | .object _ => .object

/-- Takes the route, the nesting that may still be entered, and the tree. -/
abbrev Decoder (α : Type) := Route → Nat → Json → Except DecodeError α

/-- The refusal of a tree of the wrong type; a string without content is refused as such. -/
def refuse {α : Type} (wanted : Expectation) (route : Route) : Json → Except DecodeError α
  | .string none => .error .noContent
  | j => .error (.wrongType (shape route j) wanted)

/-- Goes one level in. -/
def enter {α : Type} (depth : Nat) (inside : Nat → Except DecodeError α) : Except DecodeError α :=
  match depth with
  | 0 => .error .tooDeep
  | d + 1 => inside d

/-- Refuses items that are left over once `length` items have been looked through. -/
def noMore (route : Route) (length : Nat) (rest : List Json) : Except DecodeError Unit :=
  if rest.isEmpty then .ok ()
  else match route with
    | .text => .error .surplusItems
    | .value => .error (.wrongLength length .fewerItems)

namespace Decoder

def string : Decoder String
  | _, _, .string (some s) => .ok s
  | route, _, j => refuse .string route j

def boolean : Decoder Bool
  | _, _, .boolean b => .ok b
  | route, _, j => refuse .boolean route j

def items {α : Type} (item : Decoder α) (route : Route) (depth : Nat) :
    List Json → Except DecodeError (List α)
  | [] => .ok []
  | j :: js => do
    let a ← item route depth j
    let rest ← items item route depth js
    .ok (a :: rest)

def list {α : Type} (item : Decoder α) : Decoder (List α)
  | route, depth, .array js => enter depth fun d => items item route d js
  | route, _, j => refuse .array route j

/-- Exactly two items. -/
def pair {α : Type} (item : Decoder α) : Decoder (α × α)
  | route, depth, .array js => enter depth fun d =>
    match js with
    | [] => .error (.wrongLength 0 .pair)
    | first :: js' => do
      let a ← item route d first
      match js' with
      | [] => .error (.wrongLength 1 .pair)
      | second :: rest => do
        let b ← item route d second
        noMore route js.length rest
        .ok (a, b)
  | route, _, j => refuse .pair route j

def nullable {α : Type} (inner : Decoder α) : Decoder (Option α)
  | _, _, .null => .ok none
  | route, depth, j => some <$> inner route depth j

/-- The choice of a name. -/
def chosen {α : Type} (choices : List (String × α)) (name : String) : Except DecodeError α :=
  match choices.find? fun c => c.1 == name with
  | some c => .ok c.2
  | none => .error (.unknownChoice name (choices.map (·.1)))

/-- A name, or an object with that name as its only key and nothing under it. -/
def choice {α : Type} (choices : List (String × α)) : Decoder α
  | _, _, .string (some name) => chosen choices name
  | _, _, .string none => .error .noContent
  | .text, depth, .object fields => enter depth fun _ =>
    match fields with
    | [] => .error .noChoice
    | (none, _) :: _ => .error .noContent
    | (some name, under) :: rest => do
      let a ← chosen choices name
      match under with
      | .null => if rest.isEmpty then .ok a else .error .noChoice
      | j => refuse .null .text j
  | .value, _, .object fields =>
    match fields with
    | [(some name, under)] => do
      let a ← chosen choices name
      match under with
      | .null => .ok a
      | j => refuse .null .value j
    | _ => .error .notOneField
  | .text, _, _ => .error .noChoice
  | .value, _, j => refuse .stringOrObject .value j

/-- The text of a volume: the content of a string, the spelling of a number, or what is given under
the number key. -/
def volumeText : Decoder String
  | .text, _, .number n => .ok n.text
  | .value, _, .number n => .ok n.storedText
  | _, _, .string (some s) => .ok s
  | route, depth, .object fields => enter depth fun _ =>
    match fields with
    | [] => refuse .volume route (.object [])
    | (none, _) :: _ => .error .noContent
    | (some k, under) :: rest =>
      if k = numberKey then do
        let s ← string route depth under
        if rest.isEmpty then .ok s
        else match route with
          | .text => .error .surplusItems
          | .value => .error (.wrongLength fields.length .fewerFields)
      else .error (.unknownField k numberKey)
  | route, _, j => refuse .volume route j

end Decoder

/-- One of the two fields of a record. A field with a `fallback` may be missing. -/
structure Field (α : Type) where
  names : List String
  decode : Decoder α
  fallback : Option α

namespace Field

/-- The name that refusals use. -/
def name {α : Type} (f : Field α) : String := f.names.headD ""

def required {α : Type} (name : String) (decode : Decoder α) : Field α := ⟨[name], decode, none⟩

def optional {α : Type} (name : String) (decode : Decoder α) (fallback : α) : Field α :=
  ⟨[name], decode, some fallback⟩

/-- The field's value from its place in an array. -/
def ofItem {α : Type} (f : Field α) (record : String) (index : Nat) (route : Route) (depth : Nat) :
    Option Json → Except DecodeError α
  | some j => f.decode route depth j
  | none => match f.fallback with
    | some a => .ok a
    | none => .error (.wrongLength index (.elements record))

/-- The field's value once every entry of an object has been seen. -/
def settled {α : Type} (f : Field α) (found : Option α) : Except DecodeError α :=
  match found.or f.fallback with
  | some a => .ok a
  | none => .error (.missingField f.name)

end Field

namespace Decoder

variable {α β γ : Type}

/-- Looks through the entries of an object for two fields. -/
def fields (a : Field α) (b : Field β) (route : Route) (depth : Nat) :
    Option α → Option β → List (Option String × Json) → Except DecodeError (Option α × Option β)
  | x, y, [] => .ok (x, y)
  | _, _, (none, _) :: _ => .error .noContent
  | x, y, (some k, j) :: rest =>
    if k ∈ a.names then
      if x.isSome then .error (.duplicateField a.name)
      else do
        let v ← a.decode route depth j
        fields a b route depth (some v) y rest
    else if k ∈ b.names then
      if y.isSome then .error (.duplicateField b.name)
      else do
        let v ← b.decode route depth j
        fields a b route depth x (some v) rest
    else fields a b route depth x y rest

/-- A record of two fields, from an object or from an array of the two in order. -/
def record (name : String) (a : Field α) (b : Field β) (make : α → β → γ) : Decoder γ
  | route, depth, .array js => enter depth fun d => do
    let x ← a.ofItem name 0 route d js[0]?
    let y ← b.ofItem name 1 route d js[1]?
    noMore route js.length (js.drop 2)
    .ok (make x y)
  | route, depth, .object entries => enter depth fun d => do
    let (x, y) ← fields a b route d none none entries
    .ok (make (← a.settled x) (← b.settled y))
  | route, _, j => refuse (.record name) route j

end Decoder

/-- Why a text gives nothing: it holds no value at all, it is not valid JSON, or its value is not
what was wanted. -/
inductive ReadError
  | blank
  | notJson
  | refused (cause : DecodeError)

def ReadError.message : ReadError → String
  | blank => "EOF while parsing a value"
  | notJson => "expected value"
  | refused cause => cause.message

/-- Why a text without a value is not JSON. -/
def unreadable (s : String) : ReadError := if s.toList.all isBlank then .blank else .notJson

/-- Decodes a text on the text route. What is passed over only has to be spelled correctly; but a
refusal has a cause only in valid JSON. -/
def readText {α : Type} (decode : Decoder α) (s : String) : Except ReadError α :=
  match ofText? s with
  | none => .error (unreadable s)
  | some j =>
    match decode .text maxDepth j with
    | .ok a => .ok a
    | .error cause => .error (if (valueOf? j).isSome then .refused cause else .notJson)

/-- Decodes a value. -/
def decodeValue {α : Type} (decode : Decoder α) (v : Json) : Except DecodeError α :=
  decode .value maxDepth v

/-- Decodes the value of a text. -/
def readValue {α : Type} (decode : Decoder α) (s : String) : Except ReadError α :=
  match (ofText? s).bind valueOf? with
  | none => .error (unreadable s)
  | some v => (decodeValue decode v).mapError .refused

end FairShare.Json
