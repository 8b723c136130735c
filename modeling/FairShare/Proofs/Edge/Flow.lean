import FairShare.Proofs.Volume.Sum
import FairShare.Round

/-!
# Flow along edges

A table gives every edge a volume: what has flowed along it, or what a round grants it.
`unitsAlong p` adds up the volumes on the edges that `p` picks. This is nearly all that the theory of
filling needs of a table: with `p` the edges at a slot it is what the slot gives or gets, with `p`
the edges between two slots it is what they exchange. `volumeOn` is what a single edge has, where no
edge is listed twice; of parts that are dealt out in order, an edge has the one that is paired with it
(`Round.deal_eq_volumeOn`).
-/

namespace FairShare

theorem Side.forall_iff {P : Side → Prop} : (∀ side, P side) ↔ P .demand ∧ P .supply := by
  constructor
  · intro h; exact ⟨h _, h _⟩
  · rintro ⟨hd, hs⟩ side
    cases side with
    | demand => exact hd
    | supply => exact hs

def Edge.ends (e : Edge) : BySide Nat := ⟨e.demand, e.supply⟩

def Edge.isAt (side : Side) (slot : Nat) (e : Edge) : Bool := e.ends.get side == slot

def Edge.joins (ends : BySide Nat) (e : Edge) : Bool := e.ends == ends

@[simp] theorem Edge.isAt_iff {side : Side} {slot : Nat} {e : Edge} :
    e.isAt side slot ↔ e.ends.get side = slot := by simp [isAt]

@[simp] theorem Edge.joins_iff {ends : BySide Nat} {e : Edge} : e.joins ends ↔ e.ends = ends := by
  simp [joins]

/-- The units on the edges that `p` picks. -/
def unitsAlong (p : Edge → Bool) (table : List (Edge × Volume)) : Nat :=
  unitsIn ((table.filter fun g => p g.1).map (·.2))

section
variable {p q : Edge → Bool} {table : List (Edge × Volume)} {edges : List Edge}

@[simp] theorem unitsAlong_nil (p : Edge → Bool) : unitsAlong p [] = 0 := rfl

theorem unitsAlong_cons (p : Edge → Bool) (g : Edge × Volume) (table : List (Edge × Volume)) :
    unitsAlong p (g :: table) = (if p g.1 then g.2.units else 0) + unitsAlong p table := by
  rw [unitsAlong, List.filter_cons]
  by_cases h : p g.1
  · rw [if_pos h, if_pos h]; rfl
  · rw [if_neg h, if_neg h, Nat.zero_add]; rfl

theorem unitsAlong_append (p : Edge → Bool) (table table' : List (Edge × Volume)) :
    unitsAlong p (table ++ table') = unitsAlong p table + unitsAlong p table' := by
  rw [unitsAlong, List.filter_append, List.map_append, unitsIn_append]; rfl

theorem le_unitsAlong {g : Edge × Volume} (hg : g ∈ table) (hp : p g.1) :
    g.2.units ≤ unitsAlong p table :=
  le_unitsIn_of_mem (List.mem_map.2 ⟨g, List.mem_filter.2 ⟨hg, hp⟩, rfl⟩)

/-- At an end of an edge there is at least what is on the edge. -/
theorem getElem_le_unitsAlong {vs : List Volume} {i : Nat} (he : i < edges.length)
    (hv : i < vs.length) (side : Side) :
    vs[i].units ≤ unitsAlong (·.isAt side (edges[i].ends.get side)) (edges.zip vs) := by
  have hi : i < (edges.zip vs).length := by
    rw [List.length_zip]
    omega
  have hmem : (edges[i], vs[i]) ∈ edges.zip vs := by
    rw [← List.getElem_zip (h := hi)]
    exact List.getElem_mem hi
  exact le_unitsAlong hmem (Edge.isAt_iff.2 rfl)

theorem unitsAlong_eq_unitsIn (h : ∀ g ∈ table, p g.1) :
    unitsAlong p table = unitsIn (table.map (·.2)) := by
  rw [unitsAlong, List.filter_eq_self.2 h]

theorem unitsAlong_eq_zero (h : ∀ g ∈ table, p g.1 → g.2.units = 0) : unitsAlong p table = 0 := by
  induction table with
  | nil => rfl
  | cons g table ih =>
    rw [unitsAlong_cons, ih fun g' hg' => h g' (List.mem_cons_of_mem _ hg')]
    split
    · next hp => rw [h g (by simp) hp]
    · rfl

/-- Edges along which nothing flows may be left out. -/
theorem unitsAlong_filter {r : Edge × Volume → Bool} (h : ∀ g ∈ table, ¬ r g → g.2.units = 0) :
    unitsAlong p (table.filter r) = unitsAlong p table := by
  induction table with
  | nil => rfl
  | cons g table ih =>
    have := ih fun g' hg' => h g' (List.mem_cons_of_mem _ hg')
    by_cases hr : r g
    · rw [List.filter_cons_of_pos hr, unitsAlong_cons, unitsAlong_cons, this]
    · rw [List.filter_cons_of_neg hr, unitsAlong_cons, this, h g (by simp) hr, ite_self,
        Nat.zero_add]

/-- Where no volume is more than one unit, the units are at most as many as the edges. -/
theorem unitsAlong_zip_le_countP {vs : List Volume} (h : ∀ v ∈ vs, v.units ≤ 1) :
    unitsAlong p (edges.zip vs) ≤ edges.countP p := by
  induction edges generalizing vs with
  | nil => exact Nat.zero_le _
  | cons e edges ih =>
    cases vs with
    | nil => exact Nat.zero_le _
    | cons v vs =>
      rw [List.zip_cons_cons, unitsAlong_cons, List.countP_cons]
      have := ih fun w hw => h w (List.mem_cons_of_mem _ hw)
      have := h v (by simp)
      by_cases hp : p e <;> simp [hp] <;> omega

theorem unitsAlong_map (p : Edge → Bool) (v : Volume) (edges : List Edge) :
    unitsAlong p (edges.map fun e => (e, v)) = v.units * edges.countP p := by
  induction edges with
  | nil => rfl
  | cons e edges ih =>
    rw [List.map_cons, unitsAlong_cons, ih]
    by_cases hp : p e <;> simp [hp, Nat.mul_add, Nat.add_comm]

theorem unitsAlong_uniform (p q : Edge → Bool) (v : Volume) (edges : List Edge) :
    unitsAlong p (edges.zip (edges.map fun e => if q e then v else .zero)) =
      v.units * (edges.filter q).countP p := by
  induction edges with
  | nil => rfl
  | cons e edges ih =>
    rw [List.map_cons, List.zip_cons_cons, unitsAlong_cons, ih]
    by_cases hq : q e <;> by_cases hp : p e <;> simp [hq, hp, Nat.mul_add, Nat.add_comm]

theorem unitsAlong_deal (p q : Edge → Bool) (parts : List Volume) (edges : List Edge) :
    unitsAlong p (edges.zip (Round.deal q parts edges)) =
      unitsAlong p ((edges.filter q).zip parts) := by
  induction edges generalizing parts with
  | nil => rfl
  | cons e edges ih =>
    by_cases hq : q e
    · rw [Round.deal, if_pos hq, List.zip_cons_cons, unitsAlong_cons, ih, List.filter_cons_of_pos hq]
      cases parts with
      | nil => simp
      | cons v parts => rw [List.zip_cons_cons, unitsAlong_cons]; rfl
    · rw [Round.deal, if_neg hq, List.zip_cons_cons, unitsAlong_cons, ih,
        List.filter_cons_of_neg hq]
      simp

/-- Flows add up when no edge is saturated by what it is granted. -/
theorem unitsAlong_addSat {flows granted : List Volume} (hf : flows.length = edges.length)
    (hg : granted.length = edges.length)
    (h : ∀ a ∈ flows.zip granted, a.1.units + a.2.units < Volume.limit) :
    unitsAlong p (edges.zip (List.zipWith Volume.addSat flows granted)) =
      unitsAlong p (edges.zip flows) + unitsAlong p (edges.zip granted) := by
  induction edges generalizing flows granted with
  | nil => simp
  | cons e edges ih =>
    match flows, granted, hf, hg with
    | v :: flows, g :: granted, hf, hg =>
      obtain ⟨hvg, h⟩ := List.forall_mem_cons.1 h
      have hrest := ih (by simpa using hf) (by simpa using hg) h
      have hadd : (v.addSat g).units = v.units + g.units := by
        rw [Volume.units_addSat]
        exact Nat.min_eq_left (Nat.le_pred_of_lt hvg)
      simp only [List.zipWith_cons_cons, List.zip_cons_cons, unitsAlong_cons, hrest, hadd]
      split <;> omega

end

/-! ### Single edges -/

/-- The volume on an edge, nothing if the edge is not in the table. -/
def volumeOn (table : List (Edge × Volume)) (e : Edge) : Volume := (table.lookup e).getD .zero

section
variable {table : List (Edge × Volume)} {edges : List Edge} {e e' : Edge}

theorem volumeOn_cons_self (e : Edge) (v : Volume) (table : List (Edge × Volume)) :
    volumeOn ((e, v) :: table) e = v := by
  rw [volumeOn, List.lookup_cons_self, Option.getD_some]

theorem volumeOn_cons_of_ne (h : e ≠ e') (v : Volume) (table : List (Edge × Volume)) :
    volumeOn ((e', v) :: table) e = volumeOn table e := by
  rw [volumeOn, volumeOn, List.lookup_cons, beq_false_of_ne h]

theorem volumeOn_of_not_mem (h : e ∉ table.map Prod.fst) : volumeOn table e = .zero := by
  have hnone : table.lookup e = none := List.lookup_eq_none_iff.2 fun g hg =>
    bne_iff_ne.2 fun heq => h (heq ▸ List.mem_map_of_mem hg)
  rw [volumeOn, hnone, Option.getD_none]

theorem volumeOn_map (edges : List Edge) (v : Volume) (e : Edge) :
    volumeOn (edges.map fun e => (e, v)) e = if e ∈ edges then v else .zero := by
  induction edges with
  | nil => rfl
  | cons a edges ih =>
    rw [List.map_cons]
    by_cases h : e = a
    · rw [h, volumeOn_cons_self, if_pos (List.mem_cons_self ..)]
    · rw [volumeOn_cons_of_ne h, ih]
      simp only [List.mem_cons, h, false_or]

theorem map_fst_zip_sublist {α β : Type} (as : List α) (bs : List β) :
    ((as.zip bs).map Prod.fst).Sublist as := by
  induction as generalizing bs with
  | nil => exact .slnil
  | cons a as ih =>
    cases bs with
    | nil => exact List.nil_sublist _
    | cons b bs => exact (ih bs).cons_cons a

/-- Dealing parts out gives each edge that is picked the part in its place. -/
theorem Round.deal_eq_volumeOn {p : Edge → Bool} (hn : (edges.filter p).Nodup)
    (parts : List Volume) :
    deal p parts edges = edges.map (volumeOn ((edges.filter p).zip parts)) := by
  induction edges generalizing parts with
  | nil => rfl
  | cons e edges ih =>
    by_cases hp : p e
    · rw [List.filter_cons_of_pos hp] at hn ⊢
      obtain ⟨he, hn⟩ := List.nodup_cons.1 hn
      rw [deal, if_pos hp, ih hn, List.map_cons]
      cases parts with
      | nil => simp [volumeOn]
      | cons v parts =>
        rw [List.zip_cons_cons, volumeOn_cons_self]
        refine congrArg _ (List.map_congr_left fun e' he' => ?_)
        have hne : e' ≠ e := by
          rintro rfl; exact he (List.mem_filter.2 ⟨he', hp⟩)
        exact (volumeOn_cons_of_ne hne ..).symm
    · rw [List.filter_cons_of_neg hp] at hn ⊢
      have he : e ∉ ((edges.filter p).zip parts).map Prod.fst := fun h =>
        hp (List.mem_filter.1 ((map_fst_zip_sublist ..).subset h)).2
      rw [deal, if_neg hp, ih hn, List.map_cons, volumeOn_of_not_mem he]

end
end FairShare
