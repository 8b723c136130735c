import FairShare.Binary64
import Mathlib.Algebra.Order.Field.Power
import Mathlib.Algebra.Order.Ring.Rat
import Mathlib.Tactic.FieldSimp
import Mathlib.Tactic.Linarith
import Mathlib.Tactic.Positivity
import Mathlib.Tactic.Ring

/-!
# The shortest digits of a binary number

The comparisons are made in natural numbers; in rational ones they say that a decimal lies between the
midpoints to the two neighbours (`Binary64.RoundsTo`). What rounds to a number lies around it, so a
multiple of a power of ten rounds to it only if one of the two multiples next to it does. The search
goes down the powers and stops at the first that has such a multiple: what it finds rounds to the
number, and no multiple of a higher power does (`Binary64.Shortest`). So the last digit is not zero,
and there are at most eighteen. The way with ties does not matter for the power, nor for the digits
where they are whole (`Binary64.InRange.digits_shortest`).
-/

namespace FairShare

def ScaledDigits.value (x : ScaledDigits) : ℚ := x.digits * 10 ^ x.exponent

namespace Binary64
variable {f : Binary64} {tie : Tie} {c : Nat} {k : Int} {x y : ℚ}

def value (f : Binary64) : ℚ := f.mantissa * 2 ^ f.exponent

/-! ### Comparisons in natural numbers -/

theorem powDown_pos {base : Nat} (hb : 0 < base) (e : Int) : (0 : ℚ) < powDown base e :=
  Nat.cast_pos.2 (Nat.pow_pos hb)

theorem cast_powUp {base : Nat} (hb : 0 < base) (e : Int) :
    (powUp base e : ℚ) = base ^ e * powDown base e := by
  have hbase : (base : ℚ) ≠ 0 := Nat.cast_ne_zero.2 (Nat.ne_of_gt hb)
  obtain ⟨n, rfl | rfl⟩ := e.eq_nat_or_neg
  · simp [powUp, powDown]
  · simp [powUp, powDown, hbase]

/-- A quarter of the distance to the next number above. -/
def quarter (f : Binary64) : ℚ := 2 ^ (f.exponent - 2)

theorem quarter_pos (f : Binary64) : 0 < f.quarter := by
  unfold quarter
  positivity

theorem value_eq (f : Binary64) : f.value = 4 * f.mantissa * f.quarter := by
  rw [value, quarter, zpow_sub₀ (by norm_num)]
  norm_num
  ring

/-- The midpoint to the next number below, in quarters. -/
def lowQuarters (f : Binary64) : Nat :=
  if 2 * f.mantissa == mantissaLimit && minExponent < f.exponent then 4 * f.mantissa - 1
  else 4 * f.mantissa - 2

/-- Lies between the midpoints to the two neighbours, or on one of them if the mantissa is even. -/
def RoundsTo (f : Binary64) (x : ℚ) : Prop :=
  (f.lowQuarters * f.quarter < x ∧ x < (4 * f.mantissa + 2) * f.quarter) ∨
    (f.mantissa % 2 = 0 ∧
      (x = f.lowQuarters * f.quarter ∨ x = (4 * f.mantissa + 2) * f.quarter))

theorem readsBack_iff : f.readsBack c k ↔ f.RoundsTo (c * 10 ^ k) := by
  have hs : (0 : ℚ) < powDown 2 (f.exponent - 2) * powDown 10 k :=
    mul_pos (powDown_pos (by decide) _) (powDown_pos (by decide) _)
  have hcandidate : ((c * powUp 10 k * powDown 2 (f.exponent - 2) : Nat) : ℚ) =
      c * 10 ^ k * (powDown 2 (f.exponent - 2) * powDown 10 k) := by
    push_cast
    rw [cast_powUp (by decide)]
    push_cast
    ring
  have hbound : ∀ n : Nat, ((n * (powUp 2 (f.exponent - 2) * powDown 10 k) : Nat) : ℚ) =
      n * f.quarter * (powDown 2 (f.exponent - 2) * powDown 10 k) := by
    intro n
    rw [quarter]
    push_cast
    rw [cast_powUp (by decide)]
    push_cast
    ring
  have hlow := hbound f.lowQuarters
  have hhigh := hbound (4 * f.mantissa + 2)
  have hunfold : f.readsBack c k ↔
      (f.lowQuarters * (powUp 2 (f.exponent - 2) * powDown 10 k) <
          c * powUp 10 k * powDown 2 (f.exponent - 2) ∧
        c * powUp 10 k * powDown 2 (f.exponent - 2) <
          (4 * f.mantissa + 2) * (powUp 2 (f.exponent - 2) * powDown 10 k)) ∨
      (f.mantissa % 2 = 0 ∧
        (c * powUp 10 k * powDown 2 (f.exponent - 2) =
          f.lowQuarters * (powUp 2 (f.exponent - 2) * powDown 10 k) ∨
        c * powUp 10 k * powDown 2 (f.exponent - 2) =
          (4 * f.mantissa + 2) * (powUp 2 (f.exponent - 2) * powDown 10 k))) := by
    simp only [readsBack, lowQuarters, Bool.or_eq_true, Bool.and_eq_true, decide_eq_true_eq,
      beq_iff_eq]
  have hlt : ∀ m n : Nat, m < n ↔ (m : ℚ) < n := fun _ _ => Nat.cast_lt.symm
  have heq : ∀ m n : Nat, m = n ↔ (m : ℚ) = n := fun _ _ => Nat.cast_inj.symm
  rw [hunfold, hlt, hlt, heq (c * _ * _), heq (c * _ * _), hcandidate, hlow, hhigh,
    mul_lt_mul_iff_left₀ hs, mul_lt_mul_iff_left₀ hs, mul_left_inj' hs.ne', mul_left_inj' hs.ne',
    RoundsTo]
  push_cast
  rfl

/-! ### What rounds to a number -/

theorem lowQuarters_le (f : Binary64) : (f.lowQuarters : ℚ) ≤ 4 * f.mantissa := by
  have : f.lowQuarters ≤ 4 * f.mantissa := by unfold lowQuarters; split <;> omega
  exact_mod_cast this

theorem RoundsTo.bounds (h : f.RoundsTo x) :
    (4 * f.mantissa - 2) * f.quarter ≤ x ∧ x ≤ (4 * f.mantissa + 2) * f.quarter := by
  have hq := f.quarter_pos
  have hlow : (4 * f.mantissa - 2 : ℚ) ≤ f.lowQuarters := by
    have : 4 * f.mantissa ≤ f.lowQuarters + 2 := by unfold lowQuarters; split <;> omega
    have : (4 * f.mantissa : ℚ) ≤ f.lowQuarters + 2 := by exact_mod_cast this
    linarith
  have hlow := mul_le_mul_of_nonneg_right hlow hq.le
  have hhigh : ((4 * f.mantissa - 2 : ℚ)) * f.quarter ≤ (4 * f.mantissa + 2) * f.quarter :=
    mul_le_mul_of_nonneg_right (by linarith) hq.le
  rcases h with ⟨h, h'⟩ | ⟨-, rfl | rfl⟩
  · exact ⟨by linarith, h'.le⟩
  · refine ⟨hlow, mul_le_mul_of_nonneg_right ?_ hq.le⟩
    linarith [f.lowQuarters_le]
  · exact ⟨hhigh, le_rfl⟩

theorem roundsTo_of_le (hm : 0 < f.mantissa) (h : f.value ≤ x)
    (h' : x < (4 * f.mantissa + 2) * f.quarter) : f.RoundsTo x := by
  have hlow : (f.lowQuarters : ℚ) < 4 * f.mantissa := by
    have : f.lowQuarters < 4 * f.mantissa := by unfold lowQuarters; split <;> omega
    exact_mod_cast this
  have := mul_lt_mul_of_pos_right hlow f.quarter_pos
  rw [value_eq] at h
  exact .inl ⟨by linarith, h'⟩

/-- So does everything between it and the number. -/
theorem RoundsTo.between (hm : 0 < f.mantissa) (h : f.RoundsTo x)
    (hy : (x ≤ y ∧ y ≤ f.value) ∨ (f.value ≤ y ∧ y ≤ x)) : f.RoundsTo y := by
  have hq := f.quarter_pos
  have hhigh : f.value < (4 * f.mantissa + 2) * f.quarter := by
    rw [value_eq]
    exact mul_lt_mul_of_pos_right (by linarith) hq
  rcases hy with ⟨hxy, hyf⟩ | ⟨hfy, hyx⟩
  · rcases h with ⟨h, -⟩ | ⟨heven, rfl | rfl⟩
    · exact .inl ⟨by linarith, by linarith⟩
    · rcases hxy.eq_or_lt with rfl | hlt
      · exact .inr ⟨heven, .inl rfl⟩
      · exact .inl ⟨hlt, by linarith⟩
    · linarith
  · rcases h.bounds.2.trans' hyx |>.eq_or_lt with rfl | hlt
    · rcases h with ⟨-, h⟩ | ⟨heven, -⟩
      · linarith
      · exact .inr ⟨heven, .inr rfl⟩
    · exact roundsTo_of_le hm hfy hlt

/-! ### Multiples of a power of ten -/

def numerator (f : Binary64) (k : Int) : Nat := f.mantissa * powUp 2 f.exponent * powDown 10 k

def denominator (f : Binary64) (k : Int) : Nat := powDown 2 f.exponent * powUp 10 k

/-- The number in units of ten to the power `k`, rounded down. -/
def below (f : Binary64) (k : Int) : Nat := f.numerator k / f.denominator k

/-- Whether the multiple above is the nearer one, or is taken in a tie. -/
def prefersAbove (f : Binary64) (tie : Tie) (k : Int) : Bool :=
  f.denominator k < 2 * (f.numerator k % f.denominator k) ||
    (f.denominator k == 2 * (f.numerator k % f.denominator k) &&
      match tie with | .up => true | .toEven => f.below k % 2 == 1)

theorem multiple?_eq (f : Binary64) (tie : Tie) (k : Int) : f.multiple? tie k =
    match f.readsBack (f.below k) k, f.readsBack (f.below k + 1) k with
    | true, true => some (if f.prefersAbove tie k then f.below k + 1 else f.below k)
    | true, false => some (f.below k)
    | false, true => some (f.below k + 1)
    | false, false => none := rfl

/-- Their quotient is the number over the power of ten. -/
theorem exists_scale (f : Binary64) (k : Int) : ∃ s : ℚ, 0 < s ∧
    (f.numerator k : ℚ) = f.value * s ∧ (f.denominator k : ℚ) = 10 ^ k * s := by
  refine ⟨powDown 2 f.exponent * powDown 10 k,
    mul_pos (powDown_pos (by decide) _) (powDown_pos (by decide) _), ?_, ?_⟩
  · rw [numerator, value]
    push_cast
    rw [cast_powUp (by decide)]
    push_cast
    ring
  · rw [denominator]
    push_cast
    rw [cast_powUp (by decide)]
    push_cast
    ring

theorem denominator_pos (f : Binary64) (k : Int) : 0 < f.denominator k :=
  Nat.mul_pos (Nat.pow_pos (by decide)) (Nat.pow_pos (by decide))

theorem below_bounds (f : Binary64) (k : Int) :
    f.below k * 10 ^ k ≤ f.value ∧ f.value < (f.below k + 1) * 10 ^ k := by
  obtain ⟨s, hs, hn, hd⟩ := f.exists_scale k
  have hle : (f.below k * f.denominator k : ℚ) ≤ f.numerator k := by
    exact_mod_cast Nat.div_mul_le_self (f.numerator k) (f.denominator k)
  have hlt : (f.numerator k : ℚ) < f.below k * f.denominator k + f.denominator k := by
    exact_mod_cast Nat.lt_div_mul_add (f.denominator_pos k)
  rw [hn, hd] at hle hlt
  constructor
  · refine le_of_mul_le_mul_right ?_ hs
    linarith
  · refine lt_of_mul_lt_mul_right ?_ hs.le
    linarith

theorem multiple?_spec (h : f.multiple? tie k = some c) :
    f.RoundsTo (c * 10 ^ k) ∧ (c = f.below k ∨ c = f.below k + 1) := by
  rw [multiple?_eq] at h
  rw [← readsBack_iff]
  split at h
  · next hlow hhigh =>
    cases h
    split
    · exact ⟨hhigh, .inr rfl⟩
    · exact ⟨hlow, .inl rfl⟩
  · next hlow _ =>
    cases h
    exact ⟨hlow, .inl rfl⟩
  · next _ hhigh =>
    cases h
    exact ⟨hhigh, .inr rfl⟩
  · nomatch h

theorem multiple?_eq_none : f.multiple? tie k = none ↔
    ¬ f.readsBack (f.below k) k ∧ ¬ f.readsBack (f.below k + 1) k := by
  rw [multiple?_eq]
  cases f.readsBack (f.below k) k <;> cases f.readsBack (f.below k + 1) k <;> simp

/-- If any multiple rounds to the number then one of the two next to it does. -/
theorem not_roundsTo_of_multiple? (hm : 0 < f.mantissa) (h : f.multiple? tie k = none) (b : Nat) :
    ¬ f.RoundsTo (b * 10 ^ k) := by
  intro hb
  rw [multiple?_eq_none, readsBack_iff, readsBack_iff] at h
  obtain ⟨hle, hlt⟩ := f.below_bounds k
  have hk : (0 : ℚ) < 10 ^ k := by positivity
  rcases Nat.lt_or_ge (f.below k) b with hlow | hhigh
  · refine h.2 (hb.between hm (.inr ⟨?_, mul_le_mul_of_nonneg_right ?_ hk.le⟩))
    · push_cast
      exact hlt.le
    · exact_mod_cast hlow
  · refine h.1 (hb.between hm (.inl ⟨mul_le_mul_of_nonneg_right ?_ hk.le, hle⟩))
    exact_mod_cast hhigh

/-- Where the two ways with ties differ there is a tie. -/
theorem tie_of_multiple?_ne {c' : Nat} (h : f.multiple? .toEven k = some c)
    (h' : f.multiple? .up k = some c') (hne : c ≠ c') :
    f.RoundsTo (f.below k * 10 ^ k) ∧ f.RoundsTo ((f.below k + 1 : Nat) * 10 ^ k) ∧
      2 * f.value = (2 * f.below k + 1) * 10 ^ k := by
  rw [multiple?_eq] at h h'
  rw [← readsBack_iff, ← readsBack_iff]
  split at h
  · next hlow hhigh =>
    rw [hlow, hhigh] at h'
    refine ⟨hlow, hhigh, ?_⟩
    have hprefers : f.prefersAbove .toEven k ≠ f.prefersAbove .up k := by
      intro heq
      rw [heq] at h
      exact hne (Option.some.inj (h.symm.trans h'))
    have hmod : f.denominator k = 2 * (f.numerator k % f.denominator k) := by
      by_contra hno
      rw [prefersAbove, prefersAbove, beq_eq_false_iff_ne.2 hno, Bool.false_and,
        Bool.false_and] at hprefers
      exact hprefers rfl
    have hdiv := Nat.div_add_mod (f.numerator k) (f.denominator k)
    have hnat : 2 * f.numerator k = (2 * f.below k + 1) * f.denominator k := by
      rw [below, Nat.add_mul, Nat.mul_assoc, Nat.mul_comm (_ / _)]
      omega
    obtain ⟨s, hs, hn, hd⟩ := f.exists_scale k
    have hq : (2 * f.numerator k : ℚ) = (2 * f.below k + 1) * f.denominator k := by
      exact_mod_cast hnat
    rw [hn, hd] at hq
    refine mul_right_cancel₀ hs.ne' ?_
    linarith
  · next hlow hhigh =>
    rw [hlow, hhigh] at h'
    exact absurd (Option.some.inj (h.symm.trans h')) hne
  · next hlow hhigh =>
    rw [hlow, hhigh] at h'
    exact absurd (Option.some.inj (h.symm.trans h')) hne
  · nomatch h

/-! ### The search -/

theorem search_spec (f : Binary64) (tie : Tie) (n : Nat) :
    (∀ i < n, f.multiple? tie ((i : Int) - 324) = none) ∨
      ∃ j < n, (f.search tie n).exponent = (j : Int) - 324 ∧
        f.multiple? tie ((j : Int) - 324) = some (f.search tie n).digits ∧
        ∀ i < n, j < i → f.multiple? tie ((i : Int) - 324) = none := by
  induction n with
  | zero => exact .inl fun i hi => nomatch hi
  | succ n ih =>
    cases h : f.multiple? tie ((n : Int) - 324) with
    | some c =>
      have hsearch : f.search tie (n + 1) = ⟨c, (n : Int) - 324⟩ := by
        rw [search]
        simp only [h]
      rw [hsearch]
      exact .inr ⟨n, Nat.lt_succ_self n, rfl, h, fun i hi hni => by omega⟩
    | none =>
      have hsearch : f.search tie (n + 1) = f.search tie n := by
        rw [search]
        simp only [h]
      rw [hsearch]
      have hlast : ∀ i < n + 1, ¬ i < n → f.multiple? tie ((i : Int) - 324) = none := by
        intro i hi hn
        obtain rfl : i = n := by omega
        exact h
      rcases ih with hnone | ⟨j, hj, hexp, hsome, hnone⟩
      · exact .inl fun i hi => if hn : i < n then hnone i hn else hlast i hi hn
      · exact .inr ⟨j, Nat.lt_succ_of_lt hj, hexp, hsome, fun i hi hji =>
          if hn : i < n then hnone i hn hji else hlast i hi hn⟩

/-- A number of this format, zero apart; the mantissa may be one bit wider. -/
structure InRange (f : Binary64) : Prop where
  mantissa_pos : 0 < f.mantissa
  mantissa_le : f.mantissa ≤ 2 ^ 54
  le_exponent : -1074 ≤ f.exponent
  exponent_le : f.exponent ≤ 971

theorem divEven_le (n d : Nat) : divEven n d ≤ n / d + 1 := by
  unfold divEven
  simp only
  split <;> omega

/-- The quotient of two numbers, from the number of their binary digits. -/
theorem quotient_lt {n d : Nat} (hd : d ≠ 0) {e : Int} (h : (n.log2 : Int) - d.log2 - 53 ≤ e) :
    n * powDown 2 e / (d * powUp 2 e) < 2 ^ 54 := by
  have hn : (n : ℚ) < 2 ^ ((n.log2 : Int) + 1) := by
    have : n < 2 ^ (n.log2 + 1) := Nat.lt_log2_self
    exact_mod_cast this
  have hd' : (2 : ℚ) ^ (d.log2 : Int) ≤ d := by
    have : 2 ^ d.log2 ≤ d := Nat.log2_self_le hd
    exact_mod_cast this
  have hpos : 0 < d * powUp 2 e := Nat.mul_pos (Nat.pos_of_ne_zero hd) (Nat.pow_pos (by decide))
  have hscaled : (n : ℚ) < 2 ^ 54 * (d * 2 ^ e) := by
    calc (n : ℚ) < 2 ^ ((n.log2 : Int) + 1) := hn
      _ ≤ 2 ^ (54 + ((d.log2 : Int) + e)) := zpow_le_zpow_right₀ (by norm_num) (by omega)
      _ = 2 ^ 54 * (2 ^ (d.log2 : Int) * 2 ^ e) := by
        rw [zpow_add₀ (by norm_num), zpow_add₀ (by norm_num)]
        norm_cast
      _ ≤ 2 ^ 54 * (d * 2 ^ e) := by
        refine mul_le_mul_of_nonneg_left ?_ (by positivity)
        exact mul_le_mul_of_nonneg_right hd' (by positivity)
  refine (Nat.div_lt_iff_lt_mul hpos).2 ?_
  have hdown := powDown_pos (show 0 < 2 by decide) e
  have hprod := mul_lt_mul_of_pos_right hscaled hdown
  rw [← Nat.cast_lt (α := ℚ)]
  push_cast
  rw [cast_powUp (by decide)]
  push_cast
  linarith

/-- A quotient with its mantissa at an exponent, or at the next one if the mantissa is too wide after
rounding. -/
def rounded (n d : Nat) (e : Int) : Binary64 :=
  let m := divEven (n * powDown 2 e) (d * powUp 2 e)
  if m = mantissaLimit then ⟨m / 2, e + 1⟩ else ⟨m, e⟩

theorem nearest?_eq_some {x : ScaledDigits} (h : nearest? x = some f) :
    f.mantissa = 0 ∨ ∃ n d e, d ≠ 0 ∧ (Nat.log2 n : Int) - Nat.log2 d - 53 ≤ e ∧ minExponent ≤ e ∧
      rounded n d e = f ∧ f.exponent ≤ maxExponent := by
  unfold nearest? at h
  simp only at h
  split at h
  · nomatch h
  split at h
  · cases h
    exact .inl rfl
  obtain ⟨hmax, hf⟩ := Option.ite_none_left_eq_some.1 h
  rw [Option.some.injEq] at hf
  rw [hf] at hmax
  have hden : powDown 10 x.exponent ≠ 0 := Nat.ne_of_gt (Nat.pow_pos (by decide))
  refine .inr ⟨_, _, _, hden, ?_, ?_, hf, Int.not_lt.1 hmax⟩
  · split <;> omega
  · split <;> omega

theorem inRange_of_nearest? {x : ScaledDigits} (h : nearest? x = some f) (hm : f.mantissa ≠ 0) :
    f.InRange := by
  rcases nearest?_eq_some h with h0 | ⟨n, d, e, hd, hguess, hmin, rfl, hmax⟩
  · exact absurd h0 hm
  have hdiv := divEven_le (n * powDown 2 e) (d * powUp 2 e)
  have hlt := quotient_lt hd hguess
  refine ⟨Nat.pos_of_ne_zero hm, ?_, ?_, hmax⟩
  · unfold rounded
    simp only
    split <;> simp only <;> omega
  · unfold rounded
    unfold minExponent at hmin
    simp only
    split <;> simp only <;> omega

/-- The digits round to the number, and no multiple of a higher power of ten does. -/
structure Shortest (f : Binary64) (x : ScaledDigits) : Prop where
  rounds : f.RoundsTo x.value
  adjacent : x.digits = f.below x.exponent ∨ x.digits = f.below x.exponent + 1
  coarser : ∀ (b : Nat) (k : Int), x.exponent < k → ¬ f.RoundsTo (b * 10 ^ k)

/-- An odd multiple of half a power of ten is no multiple of a power of two as large. -/
theorem not_tie {m b n e : Nat} (hle : 10 ^ n ≤ 2 ^ e) : 2 * (m * 2 ^ e) ≠ (2 * b + 1) * 10 ^ n := by
  intro heq
  have hne : n ≤ e := (Nat.pow_le_pow_iff_right (by decide)).1 <|
    (Nat.pow_le_pow_left (by decide : 2 ≤ 10) n).trans hle
  obtain ⟨j, rfl⟩ := Nat.exists_eq_add_of_le hne
  have hcancel : 2 * (m * 2 ^ j) = (2 * b + 1) * 5 ^ n := by
    refine Nat.eq_of_mul_eq_mul_right (Nat.pow_pos (by decide) : 0 < 2 ^ n) ?_
    rw [Nat.mul_assoc (2 * b + 1), ← Nat.mul_pow, ← heq, Nat.pow_add, Nat.mul_comm (2 ^ n),
      Nat.mul_assoc, Nat.mul_assoc]
  have hodd : (2 * b + 1) * 5 ^ n % 2 = 1 := by
    simp [Nat.mul_mod, Nat.pow_mod, Nat.add_mod]
  omega

namespace InRange
variable (hf : f.InRange)
include hf

theorem quarter_bounds : (2 : ℚ) ^ (-1076 : Int) ≤ f.quarter ∧ f.quarter ≤ 2 ^ (969 : Int) := by
  have hmin := hf.le_exponent
  have hmax := hf.exponent_le
  exact ⟨zpow_le_zpow_right₀ (by norm_num) (by omega), zpow_le_zpow_right₀ (by norm_num) (by omega)⟩

/-- Nothing but zero and what is past the largest number is a multiple of so high a power. -/
theorem not_roundsTo_of_large {b : Nat} (hk : 309 < k) : ¬ f.RoundsTo (b * 10 ^ k) := by
  intro hb
  obtain ⟨hlow, hhigh⟩ := hb.bounds
  have hq := f.quarter_pos
  have hmpos : (1 : ℚ) ≤ f.mantissa := by exact_mod_cast hf.mantissa_pos
  have hmle : (f.mantissa : ℚ) ≤ 2 ^ 54 := by exact_mod_cast hf.mantissa_le
  have hbpos : (1 : ℚ) ≤ b := by
    rcases Nat.eq_zero_or_pos b with rfl | hpos
    · have := mul_pos (show (0 : ℚ) < 4 * f.mantissa - 2 by linarith) hq
      rw [Nat.cast_zero, zero_mul] at hlow
      linarith
    · exact_mod_cast hpos
  have hpow : (10 : ℚ) ^ (310 : Int) ≤ 10 ^ k := zpow_le_zpow_right₀ (by norm_num) (by omega)
  have hnum : (2 : ℚ) ^ 57 * 2 ^ (969 : Int) < 10 ^ (310 : Int) := by
    have : 2 ^ 57 * 2 ^ 969 < 10 ^ 310 := by decide +kernel
    exact_mod_cast this
  have hlarge : (10 : ℚ) ^ k ≤ b * 10 ^ k := le_mul_of_one_le_left (by positivity) hbpos
  have hsmall : (4 * f.mantissa + 2) * f.quarter ≤ 2 ^ 57 * 2 ^ (969 : Int) := by
    refine mul_le_mul ?_ hf.quarter_bounds.2 hq.le (by positivity)
    calc (4 * f.mantissa + 2 : ℚ) ≤ 4 * 2 ^ 54 + 2 := by linarith
      _ ≤ 2 ^ 57 := by norm_num
  exact absurd (hpow.trans (hlarge.trans (hhigh.trans hsmall))) (not_le.2 hnum)

/-- The multiples of so low a power are closer to each other than the numbers of this format. -/
theorem isSome_multiple?_of_le (hk : k ≤ -324) : (f.multiple? tie k).isSome := by
  by_contra hnone
  rw [Bool.not_eq_true, Option.isSome_eq_false_iff, Option.isNone_iff_eq_none] at hnone
  obtain ⟨hle, hlt⟩ := f.below_bounds k
  refine not_roundsTo_of_multiple? hf.mantissa_pos hnone (f.below k + 1)
    (roundsTo_of_le hf.mantissa_pos (by push_cast; exact hlt.le) ?_)
  have hpow : (10 : ℚ) ^ k ≤ 10 ^ (-324 : Int) := zpow_le_zpow_right₀ (by norm_num) hk
  have hnum : (10 : ℚ) ^ (-324 : Int) ≤ 2 ^ (-1076 : Int) := by
    have : 2 ^ 1076 ≤ 10 ^ 324 := by decide +kernel
    rw [zpow_neg, zpow_neg]
    refine inv_anti₀ (by positivity) ?_
    exact_mod_cast this
  have hclose := hpow.trans (hnum.trans hf.quarter_bounds.1)
  have hq := f.quarter_pos
  rw [value_eq] at hle
  push_cast
  linarith

theorem shortest (tie : Tie) : f.Shortest (f.shortest tie) ∧
    f.multiple? tie (f.shortest tie).exponent = some (f.shortest tie).digits := by
  rw [Binary64.shortest]
  rcases f.search_spec tie 634 with hnone | ⟨j, hj, hexp, hsome, hnone⟩
  · have hsmall : (f.multiple? tie ((0 : Nat) - 324)).isSome := hf.isSome_multiple?_of_le (by decide)
    rw [hnone 0 (by decide)] at hsmall
    nomatch hsmall
  · rw [← hexp] at hsome
    obtain ⟨hrounds, hadjacent⟩ := multiple?_spec hsome
    refine ⟨⟨hrounds, hadjacent, fun b k hk => ?_⟩, hsome⟩
    rcases Int.lt_or_le 309 k with hlarge | hle
    · exact hf.not_roundsTo_of_large hlarge
    · obtain ⟨i, hi⟩ := Int.eq_ofNat_of_zero_le (show 0 ≤ k + 324 by omega)
      obtain rfl : k = (i : Int) - 324 := by omega
      exact not_roundsTo_of_multiple? hf.mantissa_pos (hnone i (by omega) (by omega)) b

theorem exponent_shortest : (f.shortest .toEven).exponent = (f.shortest .up).exponent := by
  obtain ⟨heven, -⟩ := hf.shortest .toEven
  obtain ⟨hup, -⟩ := hf.shortest .up
  rcases Int.lt_trichotomy (f.shortest .toEven).exponent (f.shortest .up).exponent with h | h | h
  · exact absurd hup.rounds (heven.coarser _ _ h)
  · exact h
  · exact absurd heven.rounds (hup.coarser _ _ h)

theorem digits_shortest (h : 0 ≤ (f.shortest .toEven).exponent) :
    (f.shortest .toEven).digits = (f.shortest .up).digits := by
  obtain ⟨-, heven⟩ := hf.shortest .toEven
  obtain ⟨-, hup⟩ := hf.shortest .up
  rw [← hf.exponent_shortest] at hup
  obtain ⟨n, hn⟩ := Int.eq_ofNat_of_zero_le h
  rw [hn] at heven hup
  by_contra hne
  obtain ⟨hlow, hhigh, htie⟩ := tie_of_multiple?_ne heven hup hne
  -- both multiples round to the number, so its neighbours are no nearer than they are
  have hwide : (10 : ℚ) ^ n ≤ 2 ^ f.exponent := by
    have hlow := hlow.bounds.1
    have hhigh := hhigh.bounds.2
    have hvalue : 4 * f.quarter = 2 ^ f.exponent := by
      rw [quarter, zpow_sub₀ (by norm_num)]
      norm_num
      ring
    push_cast at hhigh
    rw [zpow_natCast] at hlow hhigh
    rw [← hvalue]
    linarith
  obtain ⟨e, he⟩ : ∃ e : Nat, f.exponent = e := by
    refine Int.eq_ofNat_of_zero_le (Int.not_lt.1 fun hneg => ?_)
    have hone : (1 : ℚ) ≤ 10 ^ n := one_le_pow₀ (by norm_num)
    have := zpow_lt_one_of_neg₀ (a := (2 : ℚ)) (by norm_num) hneg
    linarith
  rw [value, he, zpow_natCast, zpow_natCast] at htie
  rw [he, zpow_natCast] at hwide
  exact not_tie (by exact_mod_cast hwide) (by exact_mod_cast htie)

end InRange

namespace Shortest
variable {x : ScaledDigits} (hf : f.InRange) (hx : f.Shortest x)
include hf hx

theorem digits_pos : 0 < x.digits := by
  refine Nat.pos_of_ne_zero fun h0 => ?_
  obtain ⟨hlow, -⟩ := hx.rounds.bounds
  have hm : (1 : ℚ) ≤ f.mantissa := by exact_mod_cast hf.mantissa_pos
  have := mul_pos (show (0 : ℚ) < 4 * f.mantissa - 2 by linarith) f.quarter_pos
  rw [ScaledDigits.value, h0, Nat.cast_zero, zero_mul] at hlow
  linarith

omit hf in
theorem not_dvd : ¬ 10 ∣ x.digits := by
  rintro ⟨b, hb⟩
  refine hx.coarser b (x.exponent + 1) (Int.lt_succ _) ?_
  have := hx.rounds
  rw [ScaledDigits.value, hb] at this
  rw [zpow_add_one₀ (by norm_num)]
  push_cast at this
  rwa [mul_comm (10 : ℚ) b, mul_assoc, mul_comm 10] at this

/-- The interval that rounds to the number is no wider than the next power of ten. -/
theorem digits_lt : x.digits < 10 ^ 18 := by
  have hq := f.quarter_pos
  have hten : (0 : ℚ) < 10 ^ x.exponent := by positivity
  have hmle : (f.mantissa : ℚ) ≤ 2 ^ 54 := by exact_mod_cast hf.mantissa_le
  obtain ⟨hle, hlt⟩ := f.below_bounds (x.exponent + 1)
  have hwide : (4 * f.mantissa + 2) * f.quarter ≤
      (f.below (x.exponent + 1) + 1) * 10 ^ (x.exponent + 1) := by
    by_contra hno
    refine hx.coarser (f.below (x.exponent + 1) + 1) _ (Int.lt_succ _) ?_
    push_cast
    exact roundsTo_of_le hf.mantissa_pos hlt.le (not_le.1 hno)
  have hhigh := hx.rounds.bounds.2
  rw [zpow_add_one₀ (by norm_num)] at hle hwide
  rw [value_eq] at hle
  rw [ScaledDigits.value] at hhigh
  have hquarter : 2 * f.quarter ≤ 10 ^ x.exponent * 10 := by linarith
  have hdigits : (x.digits : ℚ) * 10 ^ x.exponent ≤ (2 ^ 56 * 10) * 10 ^ x.exponent := by
    have : (4 * f.mantissa + 2) * f.quarter ≤ 2 ^ 56 * (2 * f.quarter) := by
      rw [mul_comm 2 f.quarter, ← mul_assoc, mul_comm (2 ^ 56) f.quarter, mul_comm _ f.quarter,
        mul_assoc]
      refine mul_le_mul_of_nonneg_left ?_ hq.le
      linarith
    linarith
  have := le_of_mul_le_mul_right hdigits hten
  have hnat : x.digits ≤ 2 ^ 56 * 10 := by exact_mod_cast this
  omega

/-- A number that large is whole, so no fraction digits are needed. -/
theorem exponent_nonneg (h : 10 ^ 16 ≤ x.value) : 0 ≤ x.exponent := by
  refine Int.not_lt.1 fun hneg => ?_
  obtain ⟨e, he⟩ : ∃ e : Nat, f.exponent = e := by
    refine Int.eq_ofNat_of_zero_le (Int.not_lt.1 fun hneg => ?_)
    have hquarter : f.quarter ≤ 2 ^ (-3 : Int) := zpow_le_zpow_right₀ (by norm_num) (by omega)
    have hmle : (f.mantissa : ℚ) ≤ 2 ^ 54 := by exact_mod_cast hf.mantissa_le
    have hsmall : (4 * f.mantissa + 2) * f.quarter ≤ (4 * 2 ^ 54 + 2) * 2 ^ (-3 : Int) :=
      mul_le_mul (by linarith) hquarter f.quarter_pos.le (by positivity)
    have hhigh := hx.rounds.bounds.2
    norm_num at hsmall h
    linarith
  have hself : f.RoundsTo f.value := by
    refine roundsTo_of_le hf.mantissa_pos le_rfl ?_
    rw [value_eq]
    exact mul_lt_mul_of_pos_right (by linarith) f.quarter_pos
  refine hx.coarser (f.mantissa * 2 ^ e) 0 hneg ?_
  rw [value, he, zpow_natCast] at hself
  push_cast
  rwa [mul_one]

end Shortest

end Binary64
end FairShare
