import FairShare.Text

/-!
# Fixed-width decimals

A `Decimal` is a sign, a mantissa of 96 bits and a count of fraction digits, at most 28. It stands
for the mantissa divided by ten to that count. Both bounds are part of the type. Digits are added
one at a time while they fit; where digits have to go, the nearest decimal is taken and a tie goes
away from zero.
-/

namespace FairShare

/-- Two to the power 96. -/
def Decimal.limit : Nat := 79228162514264337593543950336

def Decimal.maxScale : Nat := 28

/-- Below this a mantissa is short: it can take one more digit within 64 bits. -/
def Decimal.shortLimit : Nat := 1844674407370954906

structure Decimal where
  negative : Bool
  mantissa : Nat
  scale : Nat
  mantissa_lt : mantissa < Decimal.limit
  scale_le : scale ≤ Decimal.maxScale

namespace Decimal

/-- The decimal with these parts, if they are within the bounds. -/
def ofParts? (negative : Bool) (mantissa scale : Nat) : Option Decimal :=
  if h : mantissa < limit ∧ scale ≤ maxScale then some ⟨negative, mantissa, scale, h.1, h.2⟩
  else none

def zero (negative : Bool) : Decimal := ⟨negative, 0, 0, by decide, by decide⟩

/-- The divisor of the mantissa. -/
def unit (d : Decimal) : Nat := Nat.pow 10 d.scale

def isWhole (d : Decimal) : Bool := d.mantissa % d.unit == 0

/-- One more digit before the point, if it fits. -/
def appendWhole? (d : Decimal) (k : Nat) : Option Decimal :=
  ofParts? d.negative (10 * d.mantissa + k) d.scale

/-- One more digit after the point, if it fits. -/
def appendFraction? (d : Decimal) (k : Nat) : Option Decimal :=
  ofParts? d.negative (10 * d.mantissa + k) (d.scale + 1)

/-- The next decimal away from zero. Where the mantissa is full a fraction digit is given up. -/
def awayFromZero? (d : Decimal) : Option Decimal :=
  if d.mantissa + 1 < limit then ofParts? d.negative (d.mantissa + 1) d.scale
  else if d.scale = 0 then none
  else ofParts? d.negative ((d.mantissa + 5) / 10) (d.scale - 1)

/-- A number divided by ten to the power `k`, rounded to nearest, a tie upwards. -/
def dropDigits (n k : Nat) : Nat := (n + Nat.pow 10 k / 2) / Nat.pow 10 k

theorem dropDigits_le (n k : Nat) : dropDigits n k ≤ n := by
  have hp : 0 < Nat.pow 10 k := Nat.pow_pos (by decide)
  refine Nat.le_of_lt_succ (Nat.div_lt_of_lt_mul ?_)
  rw [Nat.mul_succ]
  have := Nat.le_mul_of_pos_left n hp
  omega

/-- The same number with at most `scale` fraction digits, as near as they allow. -/
def rescale (d : Decimal) (scale : Nat) : Decimal :=
  if scale ≤ d.scale then
    ⟨d.negative, dropDigits d.mantissa (d.scale - scale), min scale d.scale,
      Nat.lt_of_le_of_lt (dropDigits_le ..) d.mantissa_lt,
      Nat.le_trans (Nat.min_le_right ..) d.scale_le⟩
  else d

/-- Division by ten to the power `n`. The digits that would pass the last place are rounded. -/
def shiftDown? (d : Decimal) (n : Nat) : Option Decimal :=
  if maxScale < n then none
  else
    let r := if maxScale < d.scale + n then d.rescale (maxScale - n) else d
    ofParts? r.negative r.mantissa (r.scale + n)

/-- Multiplication by ten to the power `n`, always exact. -/
def shiftUp? (d : Decimal) (n : Nat) : Option Decimal :=
  if n ≤ d.scale then ofParts? d.negative d.mantissa (d.scale - n)
  else if maxScale < n then none
  else ofParts? d.negative (d.mantissa * Nat.pow 10 (n - d.scale)) 0

/-- Sign, whole part, and exactly `scale` digits after the point. -/
def text (d : Decimal) : String :=
  let whole := (if d.negative then "-" else "") ++ toString (d.mantissa / d.unit)
  if d.scale = 0 then whole
  else
    let fraction := Nat.toDigits 10 (d.mantissa % d.unit)
    whole ++ "." ++ String.ofList (List.replicate (d.scale - fraction.length) '0' ++ fraction)

end Decimal
end FairShare
