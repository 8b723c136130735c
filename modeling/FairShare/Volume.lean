import FairShare.Decimal.Text
import FairShare.Text

/-!
# Volumes

A `Volume` is a whole number of units below `Volume.limit`, two to the power 128. The bound is part
of the type, so every operation says what it does at the bound: `add?` gives no answer, `addSat`
stops one unit below it, and subtraction stops at zero. Each is described by what it does to
`units`; a sum that saturates at every step is the exact sum cut once (`units_total`), so totals do
not depend on the order of their parts.

`v.split n` deals `v` out to `n` parts as evenly as whole units allow: every part gets the
quotient, and the first `v % n` parts get one unit more. It is the only rounding rule there is.
`v.floorShare n` is the smallest of the parts.

A run of digits is read as a volume of any width up to the limit. Every other text has to be a
decimal, and one that is neither negative nor fractional.
-/

namespace FairShare

/-- Two to the power 128: the first number of units that a volume cannot hold. -/
def Volume.limit : Nat := 340282366920938463463374607431768211456

/-- A whole number of units below `Volume.limit`. -/
structure Volume where
  units : Nat
  units_lt : units < Volume.limit

namespace Volume

@[ext] theorem ext {v w : Volume} (h : v.units = w.units) : v = w := by
  cases v; cases w; cases h; rfl

instance : DecidableEq Volume := fun v w =>
  decidable_of_iff (v.units = w.units) ⟨ext, fun h => h ▸ rfl⟩

theorem limit_pos : 0 < limit := by decide

instance : LE Volume := ⟨fun v w => v.units ≤ w.units⟩
instance : LT Volume := ⟨fun v w => v.units < w.units⟩
instance (v w : Volume) : Decidable (v ≤ w) := inferInstanceAs (Decidable (v.units ≤ w.units))
instance (v w : Volume) : Decidable (v < w) := inferInstanceAs (Decidable (v.units < w.units))
instance : Min Volume := ⟨fun v w => if v ≤ w then v else w⟩

theorem le_def {v w : Volume} : v ≤ w ↔ v.units ≤ w.units := Iff.rfl

def zero : Volume := ⟨0, limit_pos⟩

instance : Inhabited Volume := ⟨zero⟩

/-- The volume of `n` units, if there is one. -/
def ofNat? (n : Nat) : Option Volume :=
  if h : n < limit then some ⟨n, h⟩ else none

/-- The volume of `n` units, or the largest one when `n` is out of range. -/
def clamp (n : Nat) : Volume :=
  if h : n < limit then ⟨n, h⟩ else ⟨limit - 1, by decide⟩

def isZero (v : Volume) : Bool := v.units == 0

def order (v w : Volume) : Ordering := compare v.units w.units

/-- The sum, unless it is out of range. -/
def add? (v w : Volume) : Option Volume := ofNat? (v.units + w.units)

/-- The sum, cut to the largest volume. -/
def addSat (v w : Volume) : Volume := clamp (v.units + w.units)

/-- The difference, or zero when `w` is the larger. -/
def subSat (v w : Volume) : Volume :=
  ⟨v.units - w.units, Nat.lt_of_le_of_lt (Nat.sub_le ..) v.units_lt⟩

/-- The saturating sum of a list. -/
def total (vs : List Volume) : Volume := vs.foldl addSat zero

/-- Decimal digits, without leading zeros. -/
def text (v : Volume) : String := toString v.units

@[simp] theorem units_zero : zero.units = 0 := rfl

theorem units_clamp (n : Nat) : (clamp n).units = min n (limit - 1) := by
  unfold clamp; split <;> simp only <;> omega

theorem clamp_units (v : Volume) : clamp v.units = v := by
  simp [clamp, v.units_lt]

@[simp] theorem units_addSat (v w : Volume) :
    (v.addSat w).units = min (v.units + w.units) (limit - 1) := units_clamp _

@[simp] theorem units_subSat (v w : Volume) : (v.subSat w).units = v.units - w.units := rfl

theorem isZero_iff {v : Volume} : v.isZero ↔ v.units = 0 := by simp [isZero]

theorem not_isZero_iff {v : Volume} : v.isZero = false ↔ 0 < v.units := by
  simp [isZero, Nat.pos_iff_ne_zero]

theorem add?_eq_some_iff {v w s : Volume} : v.add? w = some s ↔ v.units + w.units = s.units := by
  have := s.units_lt
  unfold add? ofNat?
  split
  · exact ⟨fun h => (Option.some.inj h) ▸ rfl, fun h => congrArg some (ext h)⟩
  · simp; omega

end Volume

/-- The exact number of units in a list of volumes. -/
def unitsIn : List Volume → Nat
  | [] => 0
  | v :: vs => v.units + unitsIn vs

namespace Volume

theorem units_foldl_addSat (vs : List Volume) (start : Volume) :
    (vs.foldl addSat start).units = min (start.units + unitsIn vs) (limit - 1) := by
  induction vs generalizing start with
  | nil => have := start.units_lt; simp [unitsIn]; omega
  | cons v vs ih => rw [List.foldl_cons, ih, units_addSat, unitsIn]; omega

/-- Saturating at every step is the same as cutting the exact sum once. -/
theorem units_total (vs : List Volume) : (total vs).units = min (unitsIn vs) (limit - 1) := by
  simp [total, units_foldl_addSat]

/-! ## Even splits -/

theorem div_succ_le {u n : Nat} (h : 0 < u % n) : u / n + 1 ≤ u := by
  rcases Nat.eq_zero_or_pos n with rfl | hn
  · simp at h ⊢; omega
  · have := Nat.div_add_mod u n
    have := Nat.le_mul_of_pos_left (u / n) hn
    omega

/-- The part at index `i`. It is never more than the whole, so it is a volume again. -/
def part (v : Volume) (n i : Nat) : Volume :=
  ⟨if i < v.units % n then v.units / n + 1 else v.units / n, by
    have := v.units_lt
    split
    · have := div_succ_le (u := v.units) (n := n) (by omega); omega
    · exact Nat.lt_of_le_of_lt (Nat.div_le_self ..) this⟩

/-- The parts of `v`, largest first; none when there is nobody to take one. -/
def split (v : Volume) (n : Nat) : List Volume := (List.range n).map (v.part n)

/-- The smallest part of `v.split n`, and all of `v` when there are no parts. -/
def floorShare (v : Volume) (n : Nat) : Volume :=
  if n = 0 then v else ⟨v.units / n, Nat.lt_of_le_of_lt (Nat.div_le_self ..) v.units_lt⟩

@[simp] theorem length_split (v : Volume) (n : Nat) : (v.split n).length = n := by simp [split]

theorem getElem_split (v : Volume) (n i : Nat) (h : i < (v.split n).length) :
    (v.split n)[i] = v.part n i := by simp [split]

end Volume

/-! ## Reading -/

/-- Why a volume is refused. Each cause keeps the text that was offered, blanks included. -/
inductive VolumeError
  | negative (offered : String)
  | fractional (offered : String)
  | overflow (offered : String)
  | malformed (offered : String)
deriving DecidableEq

def VolumeError.message : VolumeError → String
  | negative t => "volume `" ++ t ++ "` is negative"
  | fractional t => "volume `" ++ t ++ "` is not a whole number of units"
  | overflow t => "volume `" ++ t ++ "` is out of range"
  | malformed t => "volume `" ++ t ++ "` is not a number"

namespace Volume

/-- The volume of a signed count of units. -/
def ofInt (n : Int) : Except VolumeError Volume :=
  if n < 0 then .error (.negative (toString n))
  else match ofNat? n.toNat with
    | some v => .ok v
    | none => .error (.overflow (toString n))

/-- The volume that a decimal stands for; `offered` is the text that a refusal carries. A zero has
no sign. -/
def ofDecimal (offered : String) (d : Decimal) : Except VolumeError Volume :=
  if d.mantissa = 0 then .ok zero
  else if d.negative then .error (.negative offered)
  else if !d.isWhole then .error (.fractional offered)
  else .ok ⟨d.mantissa / d.unit, Nat.lt_of_le_of_lt (Nat.div_le_self ..)
    (Nat.lt_trans d.mantissa_lt (by decide))⟩

/-- Reads a volume; blanks at the two ends are allowed. -/
def ofText (offered : String) : Except VolumeError Volume :=
  let cs := Text.trim offered.toList
  if Text.isDigits cs then
    match ofNat? (Text.ofDigits cs) with
    | some v => .ok v
    | none => .error (.overflow offered)
  else
    match Decimal.ofChars? cs with
    | some d => ofDecimal offered d
    | none => .error (.malformed offered)

end Volume
end FairShare
