import FairShare.Proofs.Volume.Sum
import Mathlib.Algebra.GroupWithZero.Nat
import Mathlib.Algebra.Order.Group.Nat

/-!
# Even splits

`EvenParts amount n parts` says what can be asked of whole parts: that there are `n` of them, that they
come to the amount, that no part is smaller than a later one, and that the first is at most one unit
more than the last. All parts lie between these two, so such a list is a `stair`: parts of one unit
more, and then parts of one height. As the last part is of that height, there are fewer higher parts
than parts, and the height and the number of higher parts can only be quotient and remainder
(`EvenParts.eq_stair`). A split is that stair, and so the only list of even parts.
-/

namespace FairShare

/-- Whole parts of an amount, none smaller than a later one, that are as even as they can be. -/
structure EvenParts (amount n : Nat) (parts : List Nat) : Prop where
  length : parts.length = n
  sum : parts.sum = amount
  descending : parts.Pairwise (· ≥ ·)
  spread : ∀ first ∈ parts.head?, ∀ last ∈ parts.getLast?, first ≤ last + 1

/-! ### Stairs -/

/-- Some parts of one unit more than `low`, and then some of `low`. -/
def stair (higher lower low : Nat) : List Nat :=
  List.replicate higher (low + 1) ++ List.replicate lower low

section
variable {higher lower low : Nat}

theorem length_stair : (stair higher lower low).length = higher + lower := by simp [stair]

theorem sum_stair : (stair higher lower low).sum = higher + (higher + lower) * low := by
  rw [stair, List.sum_append_nat, List.sum_replicate_nat, List.sum_replicate_nat, Nat.mul_succ,
    Nat.add_mul]
  omega

theorem le_of_mem_stair {a : Nat} (h : a ∈ stair higher lower low) : low ≤ a ∧ a ≤ low + 1 := by
  rcases List.mem_append.1 h with h | h <;> rw [List.eq_of_mem_replicate h] <;> omega

theorem descending_stair : (stair higher lower low).Pairwise (· ≥ ·) := by
  have hlevel : ∀ n a : Nat, (List.replicate n a).Pairwise (· ≥ ·) := fun _ a =>
    List.pairwise_replicate.2 (.inr (Nat.le_refl a))
  refine List.pairwise_append.2 ⟨hlevel .., hlevel .., fun a ha b hb => ?_⟩
  rw [List.eq_of_mem_replicate ha, List.eq_of_mem_replicate hb]
  exact Nat.le_succ low

theorem evenParts_stair (higher lower low : Nat) :
    EvenParts (higher + (higher + lower) * low) (higher + lower) (stair higher lower low) where
  length := length_stair
  sum := sum_stair
  descending := descending_stair
  spread first hfirst last hlast := by
    have := (le_of_mem_stair (List.mem_of_mem_head? hfirst)).2
    have := (le_of_mem_stair (List.mem_of_mem_getLast? hlast)).1
    omega

/-- Parts that differ by at most one unit make a stair if no part is smaller than a later one. -/
theorem exists_eq_stair {parts : List Nat} (hdesc : parts.Pairwise (· ≥ ·))
    (h : ∀ a ∈ parts, low ≤ a ∧ a ≤ low + 1) : ∃ higher lower, parts = stair higher lower low := by
  induction parts with
  | nil => exact ⟨0, 0, rfl⟩
  | cons a parts ih =>
    obtain ⟨hfirst, hdesc⟩ := List.pairwise_cons.1 hdesc
    obtain ⟨ha, hparts⟩ := List.forall_mem_cons.1 h
    by_cases hlow : a = low
    · -- from the first low part on all are low
      have hall : ∀ b ∈ parts, b = low := fun b hb =>
        Nat.le_antisymm (hlow ▸ hfirst b hb) (hparts b hb).1
      refine ⟨0, parts.length + 1, ?_⟩
      rw [hlow, List.eq_replicate_of_mem hall]
      simp [stair, List.replicate_succ]
    · obtain ⟨higher, lower, rfl⟩ := ih hdesc hparts
      obtain rfl : a = low + 1 := by omega
      exact ⟨higher + 1, lower, rfl⟩

end

namespace EvenParts
variable {amount n : Nat} {parts : List Nat}

/-- All parts lie between the last and the first. -/
theorem bounds (h : EvenParts amount n parts) {last : Nat} (hlast : last ∈ parts.getLast?) :
    ∀ a ∈ parts, last ≤ a ∧ a ≤ last + 1 := by
  intro a ha
  constructor
  · obtain ⟨before, rfl⟩ := List.getLast?_eq_some_iff.1 hlast
    rcases List.mem_append.1 ha with ha | ha
    · exact (List.pairwise_append.1 h.descending).2.2 a ha last (List.mem_singleton_self last)
    · exact Nat.le_of_eq (List.mem_singleton.1 ha).symm
  · match parts, ha, h with
    | first :: rest, ha, h =>
      have hspread := h.spread first rfl last hlast
      rcases List.mem_cons.1 ha with rfl | ha
      · exact hspread
      · exact Nat.le_trans ((List.pairwise_cons.1 h.descending).1 a ha) hspread

/-- Even parts are a stair with quotient and remainder. -/
theorem eq_stair (h : EvenParts amount n parts) (hn : 0 < n) :
    parts = stair (amount % n) (n - amount % n) (amount / n) := by
  have hne : parts ≠ [] := List.ne_nil_of_length_pos (h.length ▸ hn)
  have hlast := List.getLast?_eq_some_getLast hne
  obtain ⟨higher, lower, hstair⟩ := exists_eq_stair h.descending (h.bounds hlast)
  generalize parts.getLast hne = low at hlast hstair
  subst hstair
  -- the last part is a lower one, so not all parts are higher
  have hlower : 0 < lower := by
    refine Nat.pos_of_ne_zero fun h0 => ?_
    have hmem := List.mem_of_getLast? hlast
    rw [h0, stair, List.replicate_zero, List.append_nil] at hmem
    exact Nat.succ_ne_self low (List.eq_of_mem_replicate hmem).symm
  obtain rfl : higher + lower = n := length_stair.symm.trans h.length
  obtain rfl : higher + (higher + lower) * low = amount := sum_stair.symm.trans h.sum
  obtain ⟨hdiv, hmod⟩ := (Nat.div_mod_unique hn).2
    ⟨rfl, (Nat.lt_add_of_pos_right hlower : higher < higher + lower)⟩
  rw [hdiv, hmod, Nat.add_sub_cancel_left]

end EvenParts

namespace Volume
variable (v : Volume) {n : Nat}

theorem getLast?_split (hn : 0 < n) : (v.split n).getLast? = some (v.floorShare n) := by
  obtain ⟨k, rfl⟩ := Nat.exists_eq_add_one.2 hn
  have hk : ¬ k < v.units % (k + 1) := Nat.not_lt.2 (Nat.le_of_lt_succ (Nat.mod_lt _ hn))
  have hpart : v.part (k + 1) k = v.floorShare (k + 1) := by
    rw [floorShare, if_neg (Nat.succ_ne_zero k)]
    exact Volume.ext (if_neg hk)
  rw [split, List.range_succ, List.map_append, List.map_singleton, List.getLast?_concat, hpart]

/-- A split has even parts, of which the last is the share that everybody is sure of, and no other list
has even parts. -/
theorem split_uniquely_even (hn : 0 < n) :
    EvenParts v.units n ((v.split n).map (·.units)) ∧
    (v.split n).getLast? = some (v.floorShare n) ∧
    ∀ parts, EvenParts v.units n parts → parts = (v.split n).map (·.units) := by
  have hmod := Nat.mod_lt v.units hn
  refine ⟨?_, v.getLast?_split hn, fun parts h => ?_⟩
  · have heven := evenParts_stair (v.units % n) (n - v.units % n) (v.units / n)
    rwa [Nat.add_sub_cancel' (Nat.le_of_lt hmod), Nat.mod_add_div, stair, ← v.map_units_split hn]
      at heven
  · rw [v.map_units_split hn]
    exact h.eq_stair hn

/-- All that a volume can hold, split among seven: three of them get a unit more. -/
theorem split_uniquely_even_sample : 0 < 7 ∧
    EvenParts (limit - 1) 7 (((clamp limit).split 7).map (·.units)) ∧
    ((clamp limit).split 7).getLast? = some (clamp 48611766702991209066196372490252601636) ∧
    stair 3 4 48611766702991209066196372490252601636 = ((clamp limit).split 7).map (·.units) := by
  obtain ⟨heven, hlast, hunique⟩ := split_uniquely_even (clamp limit) (n := 7) (by decide)
  have hstair : EvenParts (limit - 1) 7 (stair 3 4 48611766702991209066196372490252601636) :=
    evenParts_stair 3 4 48611766702991209066196372490252601636
  exact ⟨by decide, heven, hlast, hunique _ hstair⟩

end Volume
end FairShare
