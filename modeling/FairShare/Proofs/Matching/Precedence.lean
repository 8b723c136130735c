import FairShare.Proofs.Matching.Run
import FairShare.Proofs.Plan.Thinning
import FairShare.Proofs.Tier.Simulation

/-!
# Precedence of tiers

Tiers see nothing of those below them, and of those above only what these have left. To match a
forest in two parts is to match the first part, and then the second part with the leftovers of the
first for groups. The second matching may be on a thinner ledger: entities of which nothing is left
are not among the leftovers, so their ids are unknown there, and the slots of others have moved.
-/

namespace FairShare

namespace Plan
variable {σ : SlotMap} {plan : Plan} {l s : Ledger}

/-- A thinned plan makes the same matches on a thinned ledger, and leaves one. -/
theorem settle_thin (hfits : ∀ tier ∈ plan, TierPlan.Fits tier l) (hs : s.Thins σ l) :
    pairsOf s (thin σ plan) = pairsOf l plan ∧
      (ledgerAfter s (thin σ plan)).Thins σ (ledgerAfter l plan) := by
  induction plan generalizing l s with
  | nil => exact ⟨rfl, hs⟩
  | cons tier plan ih =>
    obtain ⟨htier, hplan⟩ := List.forall_mem_cons.1 hfits
    obtain ⟨hpairs, hledger⟩ := TierPlan.resolve_thin htier hs
    obtain ⟨hrest, hlast⟩ := ih (fun t ht => (hplan t ht).resolve htier) hledger
    refine ⟨?_, hlast⟩
    show ((tier.thin σ).resolve s).pairs ++ pairsOf ((tier.thin σ).resolve s).ledger (thin σ plan) = _
    rw [hpairs, hrest, pairsOf_cons]

/-- To go on from a ledger is to start again with its leftovers for groups. -/
theorem settle_retain {mid : Ledger} {config : Config} {forest : Forest}
    (hc : config.references = .lenient ∨ config.reportExhausted)
    (hids : ∀ side, mid.ids side = l.ids side) (ha : Admits l config.references forest) :
    Admits (mid.retain config.reportExhausted) config.references forest ∧
      (ofForest (mid.retain config.reportExhausted) forest).settle config
        (mid.retain config.reportExhausted) = (ofForest l forest).settle config mid := by
  have hthin := mid.thins_retain config.reportExhausted
  have hkept : config.reportExhausted → ∀ side, ∀ i < mid.size side,
      (mid.slotIn config.reportExhausted side i).isSome := fun hr side i hi =>
    (Ledger.isSome_slotIn_iff hi).2 (.inl hr)
  have hpos : ∀ side id, (mid.retain config.reportExhausted).position side id =
      (l.position side id).bind (mid.slotIn config.reportExhausted side) := fun side id => by
    rw [hthin.position, Ledger.position_congr (hids side)]
  have hfits : ∀ tier ∈ ofForest l forest, TierPlan.Fits tier mid := fun tier ht =>
    (fits_of_mem ha tier ht).congr hids
  obtain ⟨hpairs, hledger⟩ := settle_thin hfits hthin
  refine ⟨ha.thin hpos hthin.inj fun hstrict side i hi => ?_, ?_⟩
  · rw [hstrict] at hc
    rw [← Ledger.size_congr (hids side)] at hi
    exact hkept (hc.resolve_left (by simp)) side i hi
  · rw [settle_eq, settle_eq, ofForest_thin hpos, hpairs]
    refine congrArg _ (hledger.leftovers_eq fun hr side i hi => hkept hr side i ?_)
    rwa [Ledger.size_congr ((books_ledgerAfter hfits).ids_eq side)] at hi

end Plan

/-- A matching of a forest in two parts is a matching of the first part followed by one of the
second part with the leftovers for groups. Where unknown ids are refused, the leftovers have to list
everybody. -/
theorem matchGroups_append {config : Config} {upper lower : Forest} {groups : Groups} {o : Outcome}
    (hc : config.references = .lenient ∨ config.reportExhausted)
    (h : matchGroups config (upper ++ lower) groups = .ok o) :
    ∃ first second, matchGroups config upper groups = .ok first ∧
      matchGroups config lower first.leftovers = .ok second ∧
      o.pairs = first.pairs ++ second.pairs ∧ o.leftovers = second.leftovers := by
  obtain ⟨l, rfl, ha, rfl⟩ := matchGroups_eq_ok_iff.1 h
  obtain ⟨hupper, hlower⟩ := List.forall_mem_append.1 ha
  have hb := Plan.books_ledgerAfter (Plan.fits_of_mem hupper)
  obtain ⟨hadmits, hsettle⟩ := Plan.settle_retain hc hb.ids_eq hlower
  refine ⟨_, _, matchGroups_eq_ok_iff.2 ⟨l, rfl, hupper, rfl⟩,
    matchGroups_eq_ok_iff.2 ⟨_, rfl, hadmits, rfl⟩, ?_, ?_⟩
  · rw [hsettle, Plan.ofForest_append]
    exact Plan.pairsOf_append ..
  · rw [hsettle, Plan.ofForest_append, Plan.settle_eq, Plan.settle_eq, Plan.ledgerAfter_append]

/-- After the first tier `b`, `x` and `y` are gone. -/
theorem matchGroups_append_sample :
    matchGroups ⟨.lenient, false⟩ (sampleForest.take 1 ++ sampleForest.drop 1) sampleGroups =
        .ok sampleOutcome ∧
      ∃ first second, matchGroups ⟨.lenient, false⟩ (sampleForest.take 1) sampleGroups = .ok first ∧
        matchGroups ⟨.lenient, false⟩ (sampleForest.drop 1) first.leftovers = .ok second ∧
        sampleOutcome.pairs = first.pairs ++ second.pairs ∧
        sampleOutcome.leftovers = second.leftovers :=
  ⟨matchGroups_sample .lenient, matchGroups_append (.inl rfl) (matchGroups_sample .lenient)⟩

end FairShare
