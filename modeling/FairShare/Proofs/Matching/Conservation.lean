import FairShare.Proofs.Matching.Run

/-!
# Conservation

In every matching that is not refused, whatever an entity has declared is either exchanged in matches
that name it or left over, to the unit, and no total on the way is saturated.
-/

namespace FairShare

/-- The leftovers of a side are its group, every volume less what the matches that name the entity
come to; and what an entity is told to have matched and to have left make up what it declared. -/
theorem matchGroups_conserves {config : Config} {forest : Forest} {groups : Groups} {o : Outcome}
    (h : matchGroups config forest groups = .ok o) (side : Side) :
    (o.leftovers.get side = ((groups.get side).map fun e => e.less (exchanged o.pairs side e.id)).filter
      fun e => config.reportExhausted || !e.volume.isZero) ∧
    ∀ e ∈ groups.get side, exchanged o.pairs side e.id ≤ e.volume.units ∧
      (o.matchedFor side e.id).units = exchanged o.pairs side e.id ∧
      (o.matchedFor side e.id).units + (o.leftoverFor side e.id).units = e.volume.units := by
  obtain ⟨l, rfl, ha, rfl⟩ := matchGroups_eq_ok_iff.1 h
  have hb := Plan.books_ledgerAfter (Plan.fits_of_mem ha)
  rw [Plan.settle_eq]
  generalize Plan.pairsOf l (Plan.ofForest l forest) = pairs at hb ⊢
  generalize Plan.ledgerAfter l (Plan.ofForest l forest) = after at hb ⊢
  refine ⟨?_, fun e he => ⟨hb.covered side e he, hb.units_matchedFor he _, ?_⟩⟩
  · rw [Ledger.leftovers, BySide.get_map, hb.slots side]
  · rw [hb.units_matchedFor he, hb.leftoverFor_eq he]
    exact Nat.add_sub_cancel' (hb.covered side e he)

/-- The entity `a` is named in two tiers and `c` holds all that a volume can. -/
theorem matchGroups_conserves_sample :
    matchGroups .standard sampleForest sampleGroups = .ok sampleOutcome ∧
      sampleOutcome.leftovers.demand = (sampleGroups.demand.map fun e =>
        e.less (exchanged sampleOutcome.pairs .demand e.id)).filter (!·.volume.isZero) ∧
      (sampleOutcome.matchedFor .demand "a").units + (sampleOutcome.leftoverFor .demand "a").units =
        9 := by
  obtain ⟨hleft, hsum⟩ := matchGroups_conserves (matchGroups_sample .strict) .demand
  exact ⟨matchGroups_sample .strict, hleft, (hsum ⟨"a", .clamp 9⟩ (by decide)).2.2⟩

end FairShare
