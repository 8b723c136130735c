import FairShare.Decimal
import Mathlib.Algebra.Order.Field.Basic
import Mathlib.Algebra.Order.Ring.Rat
import Mathlib.Tactic.FieldSimp
import Mathlib.Tactic.Linarith

/-!
# What rounding a decimal loses

A decimal is `Near` a number if it is off by less than a unit of its last place. A unit of the last
place moves with the point, so a shift keeps this, and dropping digits after a shift adds at most
half a unit to a tenth of what was lost before. A shift to the right of the last place would turn
the loss into whole units. It does not happen: a decimal that has lost a digit is `IsFull`, and there
is no room for another digit at its end.
-/

namespace FairShare.Decimal
variable {d r : Decimal} {x : ℚ} {n : Nat}

/-- The decimal is the number. -/
def Is (d : Decimal) (x : ℚ) : Prop := x * 10 ^ d.scale = d.mantissa

/-- The number is less than a unit of the last place away. -/
def Near (d : Decimal) (x : ℚ) : Prop := |x * 10 ^ d.scale - d.mantissa| < 1

def IsFull (d : Decimal) : Prop := d.scale = maxScale ∨ limit ≤ 10 * d.mantissa

theorem Is.near (h : d.Is x) : d.Near x := by
  rw [Near, h, sub_self, abs_zero]
  exact one_pos

theorem ofParts?_eq_some {negative : Bool} {mantissa scale : Nat} :
    ofParts? negative mantissa scale = some d ↔
      d.negative = negative ∧ d.mantissa = mantissa ∧ d.scale = scale := by
  unfold ofParts?
  split
  · rw [Option.some_inj]
    constructor
    · rintro rfl
      exact ⟨rfl, rfl, rfl⟩
    · obtain ⟨_, _, _, _, _⟩ := d
      rintro ⟨rfl, rfl, rfl⟩
      rfl
  · next hout =>
    constructor
    · nofun
    · rintro ⟨-, rfl, rfl⟩
      exact absurd ⟨d.mantissa_lt, d.scale_le⟩ hout

theorem ofParts?_eq_none {negative : Bool} {mantissa scale : Nat}
    (h : ofParts? negative mantissa scale = none) : limit ≤ mantissa ∨ maxScale < scale := by
  unfold ofParts? at h
  split at h
  · nomatch h
  · omega

/-! ### Moving the point -/

theorem pow_ten_split {s n : Nat} (h : n ≤ s) : (10 : ℚ) ^ s = 10 ^ n * 10 ^ (s - n) := by
  rw [← pow_add, Nat.add_sub_cancel' h]

/-- Moving the point to the left, with the last place. -/
theorem div_mul_pow (x : ℚ) (s n : Nat) : x / 10 ^ n * 10 ^ (s + n) = x * 10 ^ s := by
  rw [pow_add]
  field_simp

theorem mul_mul_pow {s : Nat} (x : ℚ) (h : n ≤ s) : x * 10 ^ n * 10 ^ (s - n) = x * 10 ^ s := by
  rw [pow_ten_split h, mul_assoc]

theorem negative_shiftUp? (h : d.shiftUp? n = some r) : r.negative = d.negative := by
  unfold shiftUp? at h
  split at h
  · exact (ofParts?_eq_some.1 h).1
  · split at h
    · nomatch h
    · exact (ofParts?_eq_some.1 h).1

theorem Is.shiftUp? (hd : d.Is x) (h : d.shiftUp? n = some r) : r.Is (x * 10 ^ n) := by
  unfold Decimal.shiftUp? at h
  split at h
  · next hle =>
    obtain ⟨-, hm, hs⟩ := ofParts?_eq_some.1 h
    rw [Is, hm, hs, mul_mul_pow x hle, hd]
  · next hlt =>
    split at h
    · nomatch h
    · obtain ⟨-, hm, hs⟩ := ofParts?_eq_some.1 h
      rw [Is, hm, hs, pow_zero, mul_one, Nat.pow_eq, Nat.cast_mul, ← hd,
        pow_ten_split (Nat.le_of_not_le hlt)]
      push_cast
      rw [mul_assoc]

/-- Past the last place of a decimal that is full there is nothing. -/
theorem IsFull.le_scale (hd : d.IsFull) (h : d.shiftUp? n = some r) : n ≤ d.scale := by
  unfold shiftUp? at h
  split at h
  · assumption
  · next hlt =>
    split at h
    · nomatch h
    · next hmax =>
      obtain ⟨-, hm, -⟩ := ofParts?_eq_some.1 h
      rcases hd with hscale | hmantissa
      · omega
      · have hten : 10 ≤ Nat.pow 10 (n - d.scale) := Nat.le_self_pow (by omega) 10
        have := Nat.mul_le_mul_left d.mantissa hten
        have := r.mantissa_lt
        omega

theorem Near.shiftUp? (hd : d.Near x) (hfull : d.IsFull) (h : d.shiftUp? n = some r) :
    r.Near (x * 10 ^ n) := by
  have hle := hfull.le_scale h
  unfold Decimal.shiftUp? at h
  rw [if_pos hle] at h
  obtain ⟨-, hm, hs⟩ := ofParts?_eq_some.1 h
  rwa [Near, hm, hs, mul_mul_pow x hle]

/-! ### Giving up digits -/

theorem dropDigits_bounds (m k : Nat) :
    dropDigits m k * 10 ^ k ≤ m + 10 ^ k / 2 ∧ m + 10 ^ k / 2 < dropDigits m k * 10 ^ k + 10 ^ k := by
  have hpos : 0 < 10 ^ k := Nat.pow_pos (by decide)
  constructor
  · exact Nat.div_mul_le_self _ _
  · have := Nat.lt_mul_div_succ (m + 10 ^ k / 2) hpos
    rw [Nat.mul_succ, Nat.mul_comm] at this
    exact this

/-- A tenth of what was lost, and half a unit for the digits that go now, is less than a unit. -/
theorem near_dropDigits {m k : Nat} (hk : 0 < k) (h : |x * 10 ^ k - m| < 1) :
    |x - dropDigits m k| < 1 := by
  obtain ⟨hle, hlt⟩ := dropDigits_bounds m k
  obtain ⟨j, rfl⟩ := Nat.exists_eq_succ_of_ne_zero (Nat.ne_of_gt hk)
  have hhalf : 10 ^ (j + 1) / 2 = 5 * 10 ^ j := by omega
  rw [hhalf] at hle hlt
  have hone : (1 : ℚ) ≤ 10 ^ j := one_le_pow₀ (by norm_num)
  have hle' : (dropDigits m (j + 1) : ℚ) * (10 * 10 ^ j) ≤ m + 5 * 10 ^ j := by
    have := (Nat.cast_le (α := ℚ)).2 hle
    push_cast [pow_succ'] at this
    exact this
  have hlt' : (m : ℚ) + 5 * 10 ^ j < dropDigits m (j + 1) * (10 * 10 ^ j) + 10 * 10 ^ j := by
    have := (Nat.cast_lt (α := ℚ)).2 hlt
    push_cast [pow_succ'] at this
    exact this
  rw [pow_succ', abs_lt] at h
  have hten : (0 : ℚ) < 10 * 10 ^ j := by positivity
  rw [abs_lt]
  constructor
  · refine lt_of_mul_lt_mul_right ?_ hten.le
    linarith
  · refine lt_of_mul_lt_mul_right ?_ hten.le
    linarith

theorem Near.rescale (hd : d.Near x) {scale : Nat} (h : scale < d.scale) :
    (d.rescale scale).Near x := by
  rw [Decimal.rescale, if_pos h.le, Near]
  simp only [Nat.min_eq_left h.le]
  refine near_dropDigits (by omega) ?_
  rwa [mul_assoc, ← pow_add, Nat.add_sub_cancel' h.le]

theorem negative_rescale (d : Decimal) (scale : Nat) :
    (d.rescale scale).negative = d.negative := by
  unfold rescale
  split <;> rfl

theorem negative_shiftDown? (h : d.shiftDown? n = some r) : r.negative = d.negative := by
  unfold shiftDown? at h
  split at h
  · nomatch h
  · rw [(ofParts?_eq_some.1 h).1]
    split
    · exact negative_rescale ..
    · rfl

theorem Near.shiftDown? (hd : d.Near x) (h : d.shiftDown? n = some r) : r.Near (x / 10 ^ n) := by
  unfold Decimal.shiftDown? at h
  split at h
  · nomatch h
  · obtain ⟨-, hm, hs⟩ := ofParts?_eq_some.1 h
    rw [Near, hm, hs, div_mul_pow]
    split
    · exact hd.rescale (by omega)
    · exact hd

theorem Is.shiftDown? (hd : d.Is x) (hfits : d.scale + n ≤ maxScale)
    (h : d.shiftDown? n = some r) : r.Is (x / 10 ^ n) := by
  unfold Decimal.shiftDown? at h
  split at h
  · nomatch h
  · rw [if_neg (by omega)] at h
    obtain ⟨-, hm, hs⟩ := ofParts?_eq_some.1 h
    rw [Is, hm, hs, div_mul_pow, hd]

/-- The next decimal is as near to what lies between. Where a place is given up for it, the mantissa
is ten to that place short of the limit. -/
theorem awayFromZero?_near (h : d.awayFromZero? = some r) (hlow : d.mantissa < x * 10 ^ d.scale)
    (hhigh : x * 10 ^ d.scale < d.mantissa + 1) (hd : d.scale = maxScale ∨ limit ≤ 10 * d.mantissa + 9) :
    r.negative = d.negative ∧ r.Near x ∧ r.IsFull := by
  unfold awayFromZero? at h
  split at h
  · obtain ⟨hn, hm, hs⟩ := ofParts?_eq_some.1 h
    refine ⟨hn, ?_, ?_⟩
    · rw [Near, hm, hs, abs_lt]
      push_cast
      constructor <;> linarith
    · rw [IsFull, hm, hs]
      omega
  · next hcarry =>
    split at h
    · nomatch h
    · next hscale =>
      obtain ⟨hn, hm, hs⟩ := ofParts?_eq_some.1 h
      have hlimit : d.mantissa = 79228162514264337593543950335 := by
        have := d.mantissa_lt
        unfold limit at this hcarry
        omega
      refine ⟨hn, ?_, ?_⟩
      · rw [hlimit] at hlow hhigh hm
        rw [pow_ten_split (Nat.pos_of_ne_zero hscale), pow_one] at hlow hhigh
        rw [Near, hm, hs, abs_lt]
        norm_num at hlow hhigh ⊢
        constructor <;> linarith
      · rw [IsFull, hm, hlimit]
        exact .inr (by decide)

end FairShare.Decimal
