import FairShare.Filling
import FairShare.Proofs.Tier.Round

/-!
# Filling a tier

`Filling.run_spec` is the induction over rounds: what every step keeps holds at the end, and there
is no step left there. The invariant that carries the rest is `Balanced`: for every slot, what it
still holds and what has flowed along its edges make up what it held at the start. So flows never
saturate, and a step adds to the flow along any edges exactly what its round grants them
(`Balanced.along_apply`). Edges that are `Spent`, each having an exhausted end, get nothing any more
(`along_run_of_spent`). When a tier is full no edge is active (`TierPlan.activeEdges_fill`).
-/

namespace FairShare
namespace Filling
variable {edges : List Edge} {holders : List Holder} {f g : Filling} {r : Round}

theorem step_eq_some_iff : f.step edges holders = some (r, g) ↔
    Round.next? edges holders f.ledger = some r ∧ g = f.apply edges r := by
  rw [step, Option.map_eq_some_iff]
  constructor
  · rintro ⟨r', hr, h⟩; cases h; exact ⟨hr, rfl⟩
  · rintro ⟨hr, rfl⟩; exact ⟨r, hr, rfl⟩

theorem step_eq_none_iff :
    f.step edges holders = none ↔ Round.next? edges holders f.ledger = none := by
  rw [step, Option.map_eq_none_iff]

theorem run_eq_of_none (h : Round.next? edges holders f.ledger = none) :
    f.run edges holders = ([], f) := by
  rw [run]
  split
  · rfl
  · next hs => rw [step_eq_none_iff.2 h] at hs; cases hs

theorem run_eq_of_some (h : Round.next? edges holders f.ledger = some r) :
    f.run edges holders =
      (r :: ((f.apply edges r).run edges holders).1, ((f.apply edges r).run edges holders).2) := by
  rw [run]
  split
  · next hs => rw [step_eq_some_iff.2 ⟨h, rfl⟩] at hs; cases hs
  · next hs => rw [step_eq_some_iff.2 ⟨h, rfl⟩] at hs; cases hs; rfl

/-- What every step keeps holds of the last filling, from which there is no step. -/
theorem run_spec {P : Filling → Prop}
    (hstep : ∀ f r, P f → Round.next? edges holders f.ledger = some r → P (f.apply edges r))
    (f : Filling) (hf : P f) :
    P (f.run edges holders).2 ∧
      Round.next? edges holders (f.run edges holders).2.ledger = none := by
  fun_induction run edges holders f with
  | case1 f h => exact ⟨hf, step_eq_none_iff.1 h⟩
  | case2 f r next h rounds last hrun ih =>
    obtain ⟨hr, rfl⟩ := step_eq_some_iff.1 h
    rw [hrun] at ih
    exact ih (hstep f r hf hr)

def along (edges : List Edge) (f : Filling) (p : Edge → Bool) : Nat :=
  unitsAlong p (edges.zip f.flows)

theorem along_start (edges : List Edge) (l : Ledger) (p : Edge → Bool) :
    (start edges l).along edges p = 0 := by
  refine unitsAlong_eq_zero fun g hg _ => ?_
  obtain ⟨_, -, h⟩ := List.mem_map.1 (List.of_mem_zip hg).2
  rw [← h]; rfl

theorem remaining_apply (f : Filling) (r : Round) (side : Side) (i : Nat) :
    ((f.apply edges r).ledger.remaining side i).units =
      (f.ledger.remaining side i).units - r.granted edges f.ledger (·.isAt side i) :=
  Ledger.units_remaining_transferAll ..

theorem ids_apply (f : Filling) (r : Round) (side : Side) :
    (f.apply edges r).ledger.ids side = f.ledger.ids side := Ledger.ids_transferAll ..

theorem not_isLive_apply (r : Round) {side : Side} {i : Nat} (h : ¬ f.ledger.isLive side i) :
    ¬ (f.apply edges r).ledger.isLive side i := by
  rw [Ledger.not_isLive_iff] at h ⊢
  rw [remaining_apply, h, Nat.zero_sub]

theorem drainsTo_apply (edges : List Edge) (f : Filling) (r : Round) :
    f.ledger.DrainsTo (f.apply edges r).ledger := fun _ _ => not_isLive_apply r

/-- Every slot of the ledger has what is left in it and what has flowed along its edges. -/
structure Balanced (edges : List Edge) (l : Ledger) (f : Filling) : Prop where
  length : f.flows.length = edges.length
  ids : ∀ side, f.ledger.ids side = l.ids side
  balance : ∀ side i, (f.ledger.remaining side i).units + f.along edges (·.isAt side i) =
    (l.remaining side i).units

theorem balanced_start (edges : List Edge) (l : Ledger) : Balanced edges l (start edges l) where
  length := List.length_map _
  ids _ := rfl
  balance side i := by rw [along_start]; rfl

namespace Balanced
variable {tier : TierPlan} {l : Ledger}

theorem drainsTo (hb : Balanced edges l f) : l.DrainsTo f.ledger := fun side i hi => by
  have := hb.balance side i
  rw [Ledger.not_isLive_iff] at hi ⊢
  omega

theorem fits (hb : Balanced edges l f) (ht : tier.Fits l) : tier.Fits f.ledger :=
  ht.congr hb.ids

theorem holders_eq (hb : Balanced edges l f) (tier : TierPlan) :
    tier.holders l = tier.holders f.ledger := by
  rw [TierPlan.holders, TierPlan.holders, Ledger.size_congr (hb.ids .supply)]

theorem granted_le (hb : Balanced tier.edges l f) (ht : tier.Fits l)
    (hr : Round.next? tier.edges (tier.holders l) f.ledger = some r) (side : Side) (i : Nat) :
    r.granted tier.edges f.ledger (·.isAt side i) ≤ (f.ledger.remaining side i).units :=
  Round.granted_isAt_le (hb.fits ht) (hb.holders_eq tier ▸ hr) side i

/-- The demand slot of an edge has room for what has flowed along it and what it is granted. -/
theorem add_lt_of_le (hb : Balanced edges l f) (hle : ∀ i,
    r.granted edges f.ledger (·.isAt .demand i) ≤ (f.ledger.remaining .demand i).units) :
    ∀ a ∈ f.flows.zip (r.grants edges f.ledger), a.1.units + a.2.units < Volume.limit := by
  intro a ha
  have hlen : (r.grants edges f.ledger).length = edges.length := Round.length_grants r
  have hlength := hb.length
  obtain ⟨i, hi, rfl⟩ := List.getElem_of_mem ha
  rw [List.length_zip] at hi
  simp only [List.getElem_zip]
  have hmem : i < edges.length := by omega
  have hflow : f.flows[i].units ≤ f.along edges (·.isAt .demand (edges[i].ends.get .demand)) :=
    getElem_le_unitsAlong hmem (by omega) .demand
  have hgrant : (r.grants edges f.ledger)[i].units ≤
      r.granted edges f.ledger (·.isAt .demand (edges[i].ends.get .demand)) :=
    getElem_le_unitsAlong hmem (by omega) .demand
  have hle := hle (edges[i].ends.get .demand)
  have hbal := hb.balance .demand (edges[i].ends.get .demand)
  have hlim := (l.remaining .demand (edges[i].ends.get .demand)).units_lt
  omega

/-- What no slot is overdrawn by adds to the flows just what it grants. -/
theorem along_apply_of_le (hb : Balanced edges l f) (hle : ∀ i,
    r.granted edges f.ledger (·.isAt .demand i) ≤ (f.ledger.remaining .demand i).units)
    (p : Edge → Bool) :
    (f.apply edges r).along edges p = f.along edges p + r.granted edges f.ledger p :=
  unitsAlong_addSat hb.length (Round.length_grants r) (hb.add_lt_of_le hle)

theorem apply_of_le (hb : Balanced edges l f) (hle : ∀ side i,
    r.granted edges f.ledger (·.isAt side i) ≤ (f.ledger.remaining side i).units) :
    Balanced edges l (f.apply edges r) where
  length := by
    show (List.zipWith _ _ _).length = _
    rw [List.length_zipWith, hb.length, Round.length_grants, Nat.min_self]
  ids side := (ids_apply f r side).trans (hb.ids side)
  balance side i := by
    have := hle side i
    have := hb.balance side i
    rw [remaining_apply, hb.along_apply_of_le (hle .demand)]
    omega

/-- A step adds what its round grants. -/
theorem along_apply (hb : Balanced tier.edges l f) (ht : tier.Fits l)
    (hr : Round.next? tier.edges (tier.holders l) f.ledger = some r) (p : Edge → Bool) :
    (f.apply tier.edges r).along tier.edges p =
      f.along tier.edges p + r.granted tier.edges f.ledger p :=
  hb.along_apply_of_le (hb.granted_le ht hr .demand) p

theorem apply (hb : Balanced tier.edges l f) (ht : tier.Fits l)
    (hr : Round.next? tier.edges (tier.holders l) f.ledger = some r) :
    Balanced tier.edges l (f.apply tier.edges r) :=
  hb.apply_of_le (hb.granted_le ht hr)

end Balanced

/-! ### Where nothing flows any more -/

/-- Every edge that `p` picks has an exhausted end. -/
def Spent (edges : List Edge) (l : Ledger) (p : Edge → Bool) : Prop :=
  ∀ e ∈ edges, p e → ∃ side, ¬ l.isLive side (e.ends.get side)

theorem Spent.apply {p : Edge → Bool} (h : Spent edges f.ledger p) (r : Round) :
    Spent edges (f.apply edges r).ledger p := fun e he hp =>
  (h e he hp).imp fun _ hdead => not_isLive_apply r hdead

theorem spent_of_not_isLive {p : Edge → Bool} {l : Ledger} {side : Side} {i : Nat}
    (h : ¬ l.isLive side i) (hp : ∀ e, p e → e.ends.get side = i) (edges : List Edge) :
    Spent edges l p := fun e _ he => ⟨side, hp e he ▸ h⟩

theorem Spent.granted {p : Edge → Bool} {l : Ledger} (h : Spent edges l p) (r : Round) :
    r.granted edges l p = 0 := by
  rcases Nat.eq_zero_or_pos (r.granted edges l p) with h0 | hpos
  · exact h0
  · obtain ⟨e, he, hp, hact⟩ := Round.exists_isActive_of_granted_pos hpos
    obtain ⟨side, hdead⟩ := h e he hp
    exact absurd ((Edge.isActive_iff.1 hact).1 side) hdead

section
variable {tier : TierPlan} {l : Ledger} {p : Edge → Bool}

theorem along_le_run (ht : tier.Fits l) (hb : f.Balanced tier.edges l) (p : Edge → Bool) :
    f.along tier.edges p ≤ (f.run tier.edges (tier.holders l)).2.along tier.edges p := by
  refine (run_spec (P := fun g => g.Balanced tier.edges l ∧
    f.along tier.edges p ≤ g.along tier.edges p) ?_ f ⟨hb, Nat.le_refl _⟩).1.2
  rintro g r ⟨hb, hle⟩ hr
  exact ⟨hb.apply ht hr, by rw [hb.along_apply ht hr]; exact Nat.le_add_right_of_le hle⟩

theorem drainsTo_run (edges : List Edge) (holders : List Holder) (f : Filling) :
    f.ledger.DrainsTo (f.run edges holders).2.ledger :=
  (run_spec (P := fun g => f.ledger.DrainsTo g.ledger)
    (fun g r h _ => h.trans (drainsTo_apply edges g r)) f (.refl _)).1

/-- What is spent stays so, so nothing is added to its flow. -/
theorem along_run_of_spent (ht : tier.Fits l) (hb : f.Balanced tier.edges l)
    (h : Spent tier.edges f.ledger p) :
    (f.run tier.edges (tier.holders l)).2.along tier.edges p = f.along tier.edges p := by
  refine (run_spec (P := fun g => g.Balanced tier.edges l ∧ Spent tier.edges g.ledger p ∧
    g.along tier.edges p = f.along tier.edges p) ?_ f ⟨hb, h, rfl⟩).1.2.2
  rintro g r ⟨hb, hspent, heq⟩ hr
  refine ⟨hb.apply ht hr, hspent.apply r, ?_⟩
  rw [hb.along_apply ht hr, hspent.granted, Nat.add_zero, heq]

end
end Filling

namespace TierPlan
variable {tier : TierPlan} {l : Ledger}

/-- What holds at the start of a tier and is kept by every balanced step holds at its end. -/
theorem fill_spec (ht : tier.Fits l) {P : Filling → Prop} (hstart : P (.start tier.edges l))
    (hstep : ∀ f r, f.Balanced tier.edges l → P f →
      Round.next? tier.edges (tier.holders l) f.ledger = some r → P (f.apply tier.edges r)) :
    (tier.fill l).2.Balanced tier.edges l ∧ P (tier.fill l).2 := by
  refine (Filling.run_spec (P := fun f => f.Balanced tier.edges l ∧ P f) ?_ _
    ⟨Filling.balanced_start .., hstart⟩).1
  rintro f r ⟨hb, hf⟩ hr
  exact ⟨hb.apply ht hr, hstep f r hb hf hr⟩

theorem balanced_fill (ht : tier.Fits l) : (tier.fill l).2.Balanced tier.edges l :=
  (fill_spec ht (P := fun _ => True) trivial fun _ _ _ _ _ => trivial).1

theorem activeEdges_fill (ht : tier.Fits l) :
    Round.activeEdges tier.edges (tier.fill l).2.ledger = [] := by
  have hb := balanced_fill ht
  have hnone : Round.next? tier.edges (tier.holders l) (tier.fill l).2.ledger = none :=
    (Filling.run_spec (P := fun _ => True) (fun _ _ _ _ => trivial) _ trivial).2
  rw [hb.holders_eq tier] at hnone
  exact (Round.next?_eq_none_iff (hb.fits ht)).1 hnone

end TierPlan
end FairShare
