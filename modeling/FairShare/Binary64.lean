/-!
# Binary floating point, in exact arithmetic

The positive finite numbers of the IEEE format with 53 significant bits, as a mantissa times a power
of two. `nearest?` rounds a decimal to one of them (a tie goes to the even mantissa), and `shortest`
finds the decimal with the fewest digits that rounds back to it, the nearer one if two have as few.
Both compute with natural numbers only: a power with a negative exponent is moved to the other side
of the comparison.
-/

namespace FairShare

/-- Two to the power 53, the first mantissa that is too wide. -/
def Binary64.mantissaLimit : Nat := 9007199254740992

def Binary64.minExponent : Int := -1074
def Binary64.maxExponent : Int := 971

/-- `mantissa` times two to the power `exponent`. -/
structure Binary64 where
  mantissa : Nat
  exponent : Int

/-- A digit string times a power of ten. -/
structure ScaledDigits where
  digits : Nat
  exponent : Int

/-- Where a number is exactly between two neighbours. -/
inductive Tie
  | toEven
  | up

namespace Binary64

/-- The numerator of `base` to the power `e`. -/
def powUp (base : Nat) (e : Int) : Nat := Nat.pow base e.toNat

/-- The denominator of `base` to the power `e`. -/
def powDown (base : Nat) (e : Int) : Nat := Nat.pow base (-e).toNat

/-- The quotient rounded to nearest, a tie to the even neighbour. -/
def divEven (n d : Nat) : Nat :=
  let q := n / d
  let r := n % d
  if d < 2 * r || (d == 2 * r && q % 2 == 1) then q + 1 else q

/-- The nearest number, with an exponent that makes the mantissa fit; none past the largest one.
Decimals far outside the range are recognised by the place of their first digit. -/
def nearest? (x : ScaledDigits) : Option Binary64 :=
  let place : Int := (Nat.toDigits 10 x.digits).length + x.exponent
  if 310 < place then none
  else if place < -330 then some ⟨0, minExponent⟩
  else
    let n := x.digits * powUp 10 x.exponent
    let d := powDown 10 x.exponent
    let guess : Int := max ((Nat.log2 n : Int) - Nat.log2 d - 53) minExponent
    let fits := n * powDown 2 guess / (d * powUp 2 guess) < mantissaLimit
    let e := if fits then guess else guess + 1
    let m := divEven (n * powDown 2 e) (d * powUp 2 e)
    let r : Binary64 := if m = mantissaLimit then ⟨m / 2, e + 1⟩ else ⟨m, e⟩
    if maxExponent < r.exponent then none else some r

/-- Whether `c` times ten to the power `k` rounds to `f`: it lies between the midpoints to the two
neighbours, themselves included when the mantissa is even. Below a power of two the neighbour is
half as far away. -/
def readsBack (f : Binary64) (c : Nat) (k : Int) : Bool :=
  let q := f.exponent - 2
  let candidate := c * powUp 10 k * powDown 2 q
  let unit := powUp 2 q * powDown 10 k
  let narrow := 2 * f.mantissa == mantissaLimit && minExponent < f.exponent
  let low := (if narrow then 4 * f.mantissa - 1 else 4 * f.mantissa - 2) * unit
  let high := (4 * f.mantissa + 2) * unit
  (low < candidate && candidate < high)
    || (f.mantissa % 2 == 0 && (candidate == low || candidate == high))

/-- The multiple of ten to the power `k` next to `f` that rounds to `f`, if there is one. -/
def multiple? (f : Binary64) (tie : Tie) (k : Int) : Option Nat :=
  let n := f.mantissa * powUp 2 f.exponent * powDown 10 k
  let d := powDown 2 f.exponent * powUp 10 k
  let low := n / d
  let upper : Bool :=
    d < 2 * (n % d) || (d == 2 * (n % d) && match tie with | .up => true | .toEven => low % 2 == 1)
  match f.readsBack low k, f.readsBack (low + 1) k with
  | true, true => some (if upper then low + 1 else low)
  | true, false => some low
  | false, true => some (low + 1)
  | false, false => none

/-- The first power of ten, from `n - 325` downwards, that has such a multiple. -/
def search (f : Binary64) (tie : Tie) : Nat → ScaledDigits
  | 0 => ⟨0, 0⟩
  | n + 1 =>
    let k : Int := (n : Int) - 324
    match f.multiple? tie k with
    | some c => ⟨c, k⟩
    | none => search f tie n

/-- The fewest digits that read back as `f`. -/
def shortest (f : Binary64) (tie : Tie) : ScaledDigits := f.search tie 634

end Binary64

namespace ScaledDigits

/-- Digits with the point where it belongs, without an exponent. -/
def positional (x : ScaledDigits) : List Char :=
  let digits := Nat.toDigits 10 x.digits
  let before := digits.length + x.exponent
  if 0 ≤ x.exponent then digits ++ List.replicate x.exponent.toNat '0'
  else if 0 < before then digits.take before.toNat ++ ['.'] ++ digits.drop before.toNat
  else ['0', '.'] ++ List.replicate (-before).toNat '0' ++ digits

/-- The place of the first digit, zero being that of the units. -/
def leadingPlace (x : ScaledDigits) : Int := (Nat.toDigits 10 x.digits).length + x.exponent - 1

/-- One digit before the point, and an exponent with its sign. -/
def scientific (x : ScaledDigits) : List Char :=
  let rest := match Nat.toDigits 10 x.digits with
    | [] => []
    | [c] => [c]
    | c :: cs => c :: '.' :: cs
  let e := x.leadingPlace
  rest ++ ['e', if e < 0 then '-' else '+'] ++ Nat.toDigits 10 e.natAbs

/-- A form that shows it is not an integer: with a fraction from five places after the point to
sixteen before it, with an exponent otherwise. -/
def fractional (x : ScaledDigits) : List Char :=
  if -5 ≤ x.leadingPlace && x.leadingPlace ≤ 15 then
    if 0 ≤ x.exponent then x.positional ++ ['.', '0'] else x.positional
  else x.scientific

end ScaledDigits
end FairShare
