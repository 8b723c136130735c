import FairShare.Volume

/-!
# Sums of volumes

The exact number of units in a list adds up over its parts, whatever their order and with zeros among
them or not, and a split deals out exactly what there is (`unitsIn_split`), the first parts with a unit
more (`map_units_split`). When there are fewer units than parts, no part is more than one unit. The
least volume of a list is what the order says it is.
-/

namespace FairShare

theorem unitsIn_append (vs ws : List Volume) : unitsIn (vs ++ ws) = unitsIn vs + unitsIn ws := by
  induction vs with
  | nil => simp [unitsIn]
  | cons v vs ih => rw [List.cons_append, unitsIn, unitsIn, ih, Nat.add_assoc]

theorem le_unitsIn_of_mem {v : Volume} {vs : List Volume} (h : v ∈ vs) : v.units ≤ unitsIn vs := by
  induction vs with
  | nil => simp at h
  | cons w vs ih =>
    rw [unitsIn]
    rcases List.mem_cons.1 h with rfl | h
    · exact Nat.le_add_right ..
    · exact Nat.le_trans (ih h) (Nat.le_add_left ..)

theorem unitsIn_perm {vs ws : List Volume} (h : vs.Perm ws) : unitsIn vs = unitsIn ws := by
  induction h with
  | nil => rfl
  | cons v _ ih => rw [unitsIn, unitsIn, ih]
  | swap v w vs =>
    simp only [unitsIn]
    omega
  | trans _ _ ih ih' => exact ih.trans ih'

/-- A list has the units of what a predicate picks and of what it leaves. -/
theorem unitsIn_filter_add {α : Type} (f : α → Volume) (p : α → Bool) (as : List α) :
    unitsIn ((as.filter p).map f) + unitsIn ((as.filter (!p ·)).map f) = unitsIn (as.map f) := by
  rw [← unitsIn_append, ← List.map_append]
  exact unitsIn_perm ((List.filter_append_perm p as).map f)

/-- Zeros do not count. -/
theorem unitsIn_nonzero {α : Type} (f : α → Volume) (as : List α) :
    unitsIn ((as.filter fun a => !(f a).isZero).map f) = unitsIn (as.map f) := by
  induction as with
  | nil => rfl
  | cons a as ih =>
    cases hzero : (f a).isZero with
    | true =>
      have hunits := Volume.isZero_iff.1 hzero
      simp [hzero, unitsIn, ih, hunits]
    | false => simp [hzero, unitsIn, ih]

namespace Volume
variable (v : Volume)

instance : Std.MinEqOr Volume where
  min_eq_or v w := by
    show (if v ≤ w then v else w) = v ∨ (if v ≤ w then v else w) = w
    split <;> simp

instance : Std.LawfulOrderInf Volume where
  le_min_iff u v w := by
    show u ≤ (if v ≤ w then v else w) ↔ _
    simp only [le_def]
    split <;> omega

/-- The first `k` parts of a split into `n`. -/
theorem unitsIn_parts (n k : Nat) :
    unitsIn ((List.range k).map (v.part n)) = k * (v.units / n) + min k (v.units % n) := by
  induction k with
  | zero => simp [unitsIn]
  | succ k ih =>
    have hpart : (v.part n k).units = v.units / n + if k < v.units % n then 1 else 0 := by
      show (if _ then _ else _) = _
      split <;> rfl
    rw [List.range_succ, List.map_append, unitsIn_append, ih, List.map_singleton, unitsIn, unitsIn,
      hpart, Nat.succ_mul]
    split <;> omega

theorem unitsIn_split {n : Nat} (hn : 0 < n) : unitsIn (v.split n) = v.units := by
  rw [split, unitsIn_parts, Nat.min_eq_right (Nat.le_of_lt (Nat.mod_lt _ hn)), Nat.div_add_mod]

theorem units_part_le_one {v : Volume} {n : Nat} (h : v.units < n) (i : Nat) :
    (v.part n i).units ≤ 1 := by
  have h0 : v.units / n = 0 := Nat.div_eq_of_lt h
  show (if i < v.units % n then v.units / n + 1 else v.units / n) ≤ 1
  rw [h0]; split <;> omega

theorem units_le_one_of_mem_split {v w : Volume} {n : Nat} (h : v.units < n) (hw : w ∈ v.split n) :
    w.units ≤ 1 := by
  obtain ⟨i, -, rfl⟩ := List.mem_map.1 hw
  exact units_part_le_one h i

/-- One unit. -/
def one : Volume := ⟨1, by decide⟩

/-- The first parts get a unit more than the quotient, as many as there are units left over. -/
theorem map_units_split {n : Nat} (hn : 0 < n) : (v.split n).map (·.units) =
    List.replicate (v.units % n) (v.units / n + 1) ++
      List.replicate (n - v.units % n) (v.units / n) := by
  have hmod := Nat.mod_lt v.units hn
  refine List.ext_getElem ?_ fun i hi hi' => ?_
  · rw [List.length_map, length_split, List.length_append, List.length_replicate,
      List.length_replicate]
    omega
  · simp only [List.getElem_map, getElem_split, List.getElem_append, List.length_replicate,
      List.getElem_replicate]
    show (if _ then _ else _) = _
    split <;> rfl

/-- Fewer units than parts make as many parts of one, and nothing is left for the others. -/
theorem split_of_lt {v : Volume} {n : Nat} (h : v.units < n) :
    v.split n = List.replicate v.units one ++ List.replicate (n - v.units) zero := by
  refine (List.map_inj_right fun _ _ => ext).1 ?_
  rw [v.map_units_split (Nat.zero_lt_of_lt h), Nat.mod_eq_of_lt h, Nat.div_eq_of_lt h,
    List.map_append, List.map_replicate, List.map_replicate]
  rfl

theorem addSat_zero (v : Volume) : v.addSat zero = v := by
  rw [addSat, units_zero, Nat.add_zero, clamp_units]

theorem addSat_addSat {u v w : Volume} (h : u.units = v.units + w.units) (x : Volume) :
    (x.addSat v).addSat w = x.addSat u := by
  refine ext ?_
  rw [units_addSat, units_addSat, units_addSat]
  omega

end Volume
end FairShare
