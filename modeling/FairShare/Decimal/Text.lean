import FairShare.Decimal

/-!
# Reading decimals

The written form of a decimal: an optional sign, digits with at most one point among them, and
possibly an exponent after `e` or `E`. Underscores may stand anywhere after the first digit. Digits
before the point must fit; the first digit after the point that does not fit decides the rounding,
and what follows it is only checked to be digits and underscores.
-/

namespace FairShare.Decimal

open Text

/-- What may follow the place where digits stop to count. -/
def isTail (c : Char) : Bool := c.isDigit || c == '_'

/-- The characters after the point, `d` being what was read so far and `seen` whether that includes
a digit. Once a decimal has its last digit, an underscore is still passed over, unless the mantissa
was short before that digit: then it counts as the digit that decides the rounding, a zero. -/
def readFraction (d : Decimal) (seen : Bool) : List Char → Option Decimal
  | [] => if seen then some d else none
  | c :: cs =>
    if c = '_' then
      if !seen then none
      else if d.scale = maxScale ∧ d.mantissa / 10 < shortLimit then
        if cs.all isTail then some d else none
      else readFraction d seen cs
    else
      match digit? c with
      | none => none
      | some k =>
        match d.appendFraction? k with
        | some longer => readFraction longer true cs
        | none =>
          if !cs.all isTail then none
          else if 5 ≤ k then d.awayFromZero?
          else some d

/-- The characters after the sign. -/
def readWhole (d : Decimal) (seen : Bool) : List Char → Option Decimal
  | [] => if seen then some d else none
  | c :: cs =>
    if c = '.' then readFraction d seen cs
    else if c = '_' then if seen then readWhole d seen cs else none
    else
      match digit? c with
      | none => none
      | some k =>
        match d.appendWhole? k with
        | some longer => readWhole longer true cs
        | none => none

/-- A number without an exponent. -/
def ofPlain? : List Char → Option Decimal
  | '-' :: cs => readWhole (zero true) false cs
  | '+' :: cs => readWhole (zero false) false cs
  | cs => readWhole (zero false) false cs

/-- The digits of an exponent, with an optional plus sign. -/
def readExponent? (cs : List Char) : Option Nat :=
  let digits := match cs with
    | '+' :: rest => rest
    | _ => cs
  if isDigits digits then some (ofDigits digits) else none

def isExponentMark (c : Char) : Bool := c == 'e' || c == 'E'

/-- A number with an exponent, which starts after the first `e` or `E`. -/
def ofScientific? (cs : List Char) : Option Decimal :=
  match cs.dropWhile (!isExponentMark ·) with
  | [] => none
  | _ :: exponent => do
    let base ← ofPlain? (cs.takeWhile (!isExponentMark ·))
    match exponent with
    | '-' :: digits => base.shiftDown? (← readExponent? digits)
    | digits => base.shiftUp? (← readExponent? digits)

def ofChars? (cs : List Char) : Option Decimal :=
  match ofPlain? cs with
  | some d => some d
  | none => ofScientific? cs

end FairShare.Decimal
