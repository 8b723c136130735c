import FairShare.Proofs.Tier.Filling

/-!
# Rounds in which nobody is exhausted

Which edges are active depends on who is exhausted, and on nothing else. A round takes only from
those who have active edges, so as long as none of these is exhausted, the edges that are active stay
the same (`Filling.activeEdges_apply`). An increment takes itself as many times as one has active
edges (`Filling.remaining_apply_uniform`), and is as large as all of them allow: somebody is left
with fewer units than active edges (`Round.exists_bound`).
-/

namespace FairShare

theorem Edge.isActive_congr {l l' : Ledger} (h : ∀ side i, l'.isLive side i = l.isLive side i)
    (e : Edge) : e.isActive l' = e.isActive l := by
  rw [isActive, isActive, h, h]
  simp only [h]

namespace Round
variable {tier : TierPlan} {l : Ledger} {r : Round} {n : Nat} {increment : Volume}

theorem increment_mul_le {edges : List Edge} {holders : List Holder}
    (hr : next? edges holders l = some (.uniform n increment)) {h : Holder} (hh : h ∈ holders)
    (hd : 0 < h.degree (activeEdges edges l)) :
    increment.units * h.degree (activeEdges edges l) ≤ (h.remaining l).units := by
  rcases next?_cases hr with ⟨_, hc, -, hinc⟩ | ⟨_, hc, -⟩
  · cases hc
    rw [← hinc]
    exact leastOffer_mul_le hh hd
  · cases hc

theorem increment_pos {edges : List Edge} {holders : List Holder}
    (hr : next? edges holders l = some (.uniform n increment)) : 0 < increment.units := by
  rcases next?_cases hr with ⟨_, hc, hpos, -⟩ | ⟨_, hc, -⟩
  · cases hc; exact hpos
  · cases hc

theorem activeEdges_ne_nil {edges : List Edge} {holders : List Holder}
    (hr : next? edges holders l = some r) : activeEdges edges l ≠ [] := by
  intro hnil
  rw [next?, hnil] at hr
  cases hr

theorem exists_bound (ht : tier.Fits l)
    (hr : next? tier.edges (tier.holders l) l = some (.uniform n increment)) :
    ∃ h ∈ tier.holders l, 0 < h.degree (activeEdges tier.edges l) ∧
      (h.remaining l).units < (increment.units + 1) * h.degree (activeEdges tier.edges l) := by
  obtain ⟨e, he⟩ := List.exists_mem_of_ne_nil _ (activeEdges_ne_nil hr)
  obtain ⟨s, hs, ho, -⟩ := ht.exists_holder (mem_activeEdges.1 he).1 .supply
  have hdeg : 0 < s.degree (activeEdges tier.edges l) := List.countP_pos_iff.2 ⟨e, he, ho⟩
  obtain ⟨⟨h, d⟩, hmem, hleast⟩ := (leastOffer_spec (l := l) (mem_sharers.2 ⟨rfl, hdeg, hs⟩)).2
  obtain ⟨rfl, hd, hh⟩ := mem_sharers.1 hmem
  rcases next?_cases hr with ⟨_, hc, -, hinc⟩ | ⟨_, hc, -⟩
  · cases hc
    refine ⟨h, hh, hd, ?_⟩
    rw [← hinc, hleast, Volume.floorShare, if_neg (Nat.ne_of_gt hd), Nat.mul_comm]
    exact Nat.lt_mul_div_succ _ hd
  · cases hc

end Round

namespace Filling
variable {tier : TierPlan} {f : Filling} {r : Round}

theorem exists_holder_of_granted (ht : tier.Fits f.ledger) {side : Side} {i : Nat}
    (hpos : 0 < r.granted tier.edges f.ledger (·.isAt side i)) :
    ∃ h ∈ tier.holders f.ledger, 0 < h.degree (Round.activeEdges tier.edges f.ledger) ∧
      h.side = side ∧ h.slot = i := by
  obtain ⟨e, he, hat, hact⟩ := Round.exists_isActive_of_granted_pos hpos
  obtain ⟨h, hh, ho, rfl⟩ := ht.exists_holder he side
  have hslot : h.slot = i := (Holder.ends_of_owns ho).symm.trans (Edge.isAt_iff.1 hat)
  exact ⟨h, hh, List.countP_pos_iff.2 ⟨e, Round.mem_activeEdges.2 ⟨he, hact⟩, ho⟩, rfl, hslot⟩

/-- A round that exhausts nobody leaves the active edges as they are. -/
theorem activeEdges_apply (ht : tier.Fits f.ledger)
    (hlive : ∀ h ∈ tier.holders f.ledger, 0 < h.degree (Round.activeEdges tier.edges f.ledger) →
      (f.apply tier.edges r).ledger.isLive h.side h.slot) :
    Round.activeEdges tier.edges (f.apply tier.edges r).ledger =
      Round.activeEdges tier.edges f.ledger := by
  refine List.filter_congr fun e _ => Edge.isActive_congr (fun side i => ?_) e
  rw [Bool.eq_iff_iff]
  refine ⟨fun hi => Classical.byContradiction fun hn => not_isLive_apply r hn hi, fun hi => ?_⟩
  rcases Nat.eq_zero_or_pos (r.granted tier.edges f.ledger (·.isAt side i)) with h0 | hpos
  · rw [Ledger.isLive_iff] at hi ⊢
    rw [remaining_apply, h0]
    exact hi
  · obtain ⟨h, hh, hdeg, rfl, rfl⟩ := exists_holder_of_granted ht hpos
    exact hlive h hh hdeg

theorem holders_apply (tier : TierPlan) (f : Filling) (r : Round) :
    tier.holders (f.apply tier.edges r).ledger = tier.holders f.ledger := by
  rw [TierPlan.holders, TierPlan.holders, Ledger.size_congr (ids_apply f r .supply)]

/-- An increment takes from everybody as many times itself as they have active edges. -/
theorem remaining_apply_uniform (ht : tier.Fits f.ledger) {h : Holder}
    (hh : h ∈ tier.holders f.ledger) (n : Nat) (increment : Volume) :
    ((f.apply tier.edges (.uniform n increment)).ledger.remaining h.side h.slot).units =
      (h.remaining f.ledger).units -
        increment.units * h.degree (Round.activeEdges tier.edges f.ledger) := by
  rw [remaining_apply, Round.granted_uniform, Holder.remaining_eq, ht.degree_eq hh]

end Filling
end FairShare
