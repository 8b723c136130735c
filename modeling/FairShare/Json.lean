import FairShare.Text

/-!
# JSON trees

What a JSON text spells, before anything is made of it. Numbers keep their spelling, objects keep
the order and the repetitions of their keys, and a string whose escapes name half of a surrogate
pair is kept as a string without content: it is spelled correctly but no text is meant by it.
-/

namespace FairShare

/-- A number as it is spelled: a sign, the digits before the point, those after it (none when there
is no point), and the exponent's sign and digits. -/
structure Numeral where
  negative : Bool
  whole : List Char
  fraction : List Char
  exponent : Option (Bool × List Char)
deriving DecidableEq

namespace Numeral

/-- The exponent part, in the one spelling that is used: a small `e` and an explicit sign. -/
def exponentText : Option (Bool × List Char) → List Char
  | none => []
  | some (negative, digits) => 'e' :: (if negative then '-' else '+') :: digits

def chars (n : Numeral) : List Char :=
  (if n.negative then ['-'] else []) ++ n.whole
    ++ (if n.fraction.isEmpty then [] else '.' :: n.fraction) ++ exponentText n.exponent

def text (n : Numeral) : String := String.ofList n.chars

def ofNat (n : Nat) : Numeral := ⟨false, Nat.toDigits 10 n, [], none⟩

/-- Digits of a whole part: no zero in front of another digit. -/
def isWholePart : List Char → Bool
  | [] => false
  | ['0'] => true
  | c :: cs => c != '0' && (c :: cs).all Char.isDigit

def readExponent? : List Char → Option (Option (Bool × List Char))
  | [] => some none
  | mark :: cs =>
    if mark == 'e' || mark == 'E' then
      let (negative, digits) := match cs with
        | '-' :: ds => (true, ds)
        | '+' :: ds => (false, ds)
        | ds => (false, ds)
      if Text.isDigits digits then some (some (negative, digits)) else none
    else none

def readFraction? : List Char → Option (List Char × List Char)
  | '.' :: cs =>
    let digits := cs.takeWhile Char.isDigit
    if digits.isEmpty then none else some (digits, cs.dropWhile Char.isDigit)
  | cs => some ([], cs)

/-- Reads a whole lexeme as a number. -/
def ofChars? (cs : List Char) : Option Numeral := do
  let (negative, unsigned) := match cs with
    | '-' :: rest => (true, rest)
    | rest => (false, rest)
  let whole := unsigned.takeWhile Char.isDigit
  if isWholePart whole then
    let (fraction, rest) ← readFraction? (unsigned.dropWhile Char.isDigit)
    let exponent ← readExponent? rest
    some ⟨negative, whole, fraction, exponent⟩
  else none

end Numeral

inductive Json
  | null
  | boolean (value : Bool)
  | number (numeral : Numeral)
  | string (content : Option String)
  | array (items : List Json)
  | object (fields : List (Option String × Json))

namespace Json

def ofString (s : String) : Json := .string (some s)

/-- An object with these keys, in this order. -/
def ofFields (fields : List (String × Json)) : Json :=
  .object (fields.map fun f => (some f.1, f.2))

end Json
end FairShare
