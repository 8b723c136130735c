import FairShare.Outcome.Receipt
import FairShare.Proofs.Matching.Listing
import Mathlib.Algebra.GroupWithZero.Nat
import Mathlib.Algebra.Order.Group.Nat

/-!
# Totals

Each total of a receipt is the exact sum, cut once to what a volume can hold, so neither the order
of a list nor the zeros in it make a difference. What was matched is counted once on each side:
every match names one entity there, and no two entities of a side share an id (`sum_exchanged`). So
on each side the matches and what is left come to the units that were declared
(`Ledger.Books.units_balance`), and where those are within the limit nothing is cut.
-/

namespace FairShare

variable {pairs : List Match} {side : Side}

/-! ### Books of one side -/

/-- What a match does not name is the same without it. -/
theorem exchanged_filter_ne {a id : String} (hne : id ≠ a) :
    exchanged (pairs.filter (!·.entity side == a)) side id = exchanged pairs side id := by
  rw [exchanged, exchanged, List.filter_filter]
  congr 2
  refine List.filter_congr fun m _ => ?_
  by_cases hm : m.entity side = id
  · simp [hm, hne]
  · simp [hm]

/-- Each match is counted once on a side on which it names one of the ids. -/
theorem sum_exchanged {ids : List String} (hnodup : ids.Nodup)
    (hnames : ∀ m ∈ pairs, m.entity side ∈ ids) :
    (ids.map (exchanged pairs side)).sum = unitsIn (pairs.map (·.volume)) := by
  induction ids generalizing pairs with
  | nil =>
    cases pairs with
    | nil => rfl
    | cons m pairs => exact nomatch hnames m List.mem_cons_self
  | cons a ids ih =>
    obtain ⟨hnot, hnodup⟩ := List.nodup_cons.1 hnodup
    -- the other ids exchange what they do in the matches that do not name the first
    have hothers : ∀ m ∈ pairs.filter (!·.entity side == a), m.entity side ∈ ids := by
      intro m hm
      obtain ⟨hm, hne⟩ := List.mem_filter.1 hm
      exact (List.mem_cons.1 (hnames m hm)).resolve_left (by simpa using hne)
    have hsame : ids.map (exchanged (pairs.filter (!·.entity side == a)) side) =
        ids.map (exchanged pairs side) :=
      List.map_congr_left fun id hid => exchanged_filter_ne (ne_of_mem_of_not_mem hid hnot)
    rw [List.map_cons, List.sum_cons, ← hsame, ih hnodup hothers]
    exact unitsIn_filter_add (·.volume) (·.entity side == a) pairs

theorem unitsIn_less {es : List Entity} {n : String → Nat} (h : ∀ e ∈ es, n e.id ≤ e.volume.units) :
    ((idsOf es).map n).sum + unitsIn (volumesOf (es.map fun e => e.less (n e.id))) =
      unitsIn (volumesOf es) := by
  induction es with
  | nil => rfl
  | cons e es ih =>
    obtain ⟨he, hes⟩ := List.forall_mem_cons.1 h
    have hrest := ih hes
    have hless : (e.less (n e.id)).volume.units = e.volume.units - n e.id := rfl
    simp only [idsOf, volumesOf, List.map_cons, List.sum_cons, unitsIn, hless] at hrest ⊢
    omega

namespace Ledger
variable {before after : Ledger}

theorem Books.units_balance (h : Books before pairs after) (side : Side)
    (hnames : ∀ m ∈ pairs, m.entity side ∈ before.ids side) :
    unitsIn (pairs.map (·.volume)) + unitsIn (volumesOf (after.slots.get side)) =
      unitsIn (volumesOf (before.slots.get side)) := by
  rw [h.slots side, ← sum_exchanged (before.nodup side) hnames]
  exact unitsIn_less (h.covered side)

end Ledger

theorem Plan.mem_ids_of_mem_pairsOf {l : Ledger} {plan : Plan}
    (h : ∀ tier ∈ plan, TierPlan.Fits tier l) {m : Match} (hm : m ∈ plan.pairsOf l) (side : Side) :
    m.entity side ∈ l.ids side := by
  obtain ⟨i, hi, hid⟩ := (exists_slot_of_mem_pairsOf h hm).2 side
  rw [hid]
  exact List.mem_map_of_mem (f := (·.id)) (Ledger.mem_slots.2 ⟨i, hi, rfl⟩)

/-! ### Receipts -/

/-- The same things in any order, and any that are zero listed or not. -/
def Relisted {α : Type} (volume : α → Volume) (as bs : List α) : Prop :=
  (as.filter fun a => !(volume a).isZero).Perm (bs.filter fun a => !(volume a).isZero)

theorem Relisted.unitsIn_eq {α : Type} {volume : α → Volume} {as bs : List α}
    (h : Relisted volume as bs) : unitsIn (as.map volume) = unitsIn (bs.map volume) := by
  rw [← unitsIn_nonzero volume as, ← unitsIn_nonzero volume bs]
  exact unitsIn_perm (h.map volume)

/-- Exhausted entities are zeros. -/
theorem Ledger.relisted_leftovers (l : Ledger) (side : Side) (includeExhausted : Bool) :
    Relisted Entity.volume ((l.leftovers includeExhausted).get side) (l.slots.get side) := by
  rw [Relisted, leftovers, BySide.get_map, List.filter_filter]
  refine .of_eq (List.filter_congr fun e _ => ?_)
  cases e.volume.isZero <;> simp

/-- The two totals of what is left. -/
def Receipt.left (r : Receipt) : BySide Volume := ⟨r.leftoverDemand, r.excessSupply⟩

namespace Outcome
variable {o o' : Outcome}

theorem units_matchedVolume (o : Outcome) : o.receipt.matchedVolume.units =
    min (unitsIn (o.pairs.map (·.volume))) (Volume.limit - 1) := Volume.units_total _

theorem units_left (o : Outcome) (side : Side) : (o.receipt.left.get side).units =
    min (unitsIn (volumesOf (o.leftovers.get side))) (Volume.limit - 1) := by
  cases side <;> exact Volume.units_total _

theorem matchedVolume_congr (h : Relisted Match.volume o.pairs o'.pairs) :
    o.receipt.matchedVolume = o'.receipt.matchedVolume := by
  refine Volume.ext ?_
  rw [units_matchedVolume, units_matchedVolume, h.unitsIn_eq]

theorem left_congr (h : Relisted Entity.volume (o.leftovers.get side) (o'.leftovers.get side)) :
    o.receipt.left.get side = o'.receipt.left.get side := by
  refine Volume.ext ?_
  rw [units_left, units_left, volumesOf, volumesOf, h.unitsIn_eq]

end Outcome

theorem Plan.units_settle {l : Ledger} {plan : Plan} (h : ∀ tier ∈ plan, TierPlan.Fits tier l)
    (config : Config) (hlt : unitsIn (volumesOf (l.slots.get side)) < Volume.limit) :
    (plan.settle config l).receipt.matchedVolume.units +
        ((plan.settle config l).receipt.left.get side).units =
      unitsIn (volumesOf (l.slots.get side)) := by
  have hbalance := (books_ledgerAfter h).units_balance side fun m hm =>
    mem_ids_of_mem_pairsOf h hm side
  have hleft : unitsIn (volumesOf
      (((plan.ledgerAfter l).leftovers config.reportExhausted).get side)) =
      unitsIn (volumesOf ((plan.ledgerAfter l).slots.get side)) :=
    (Ledger.relisted_leftovers _ side _).unitsIn_eq
  rw [Outcome.units_matchedVolume, Outcome.units_left, settle_eq]
  simp only
  omega

/-- In every matching that is not refused, what was matched and what is left of a side come to what
that side declared, to the unit, if a volume can hold it; listing exhausted entities changes no
total. Of any outcome each total is the exact sum, cut once, whatever the order of its list and the
zeros in it. -/
theorem receipt_balances :
    (∀ (config : Config) (forest : Forest) (groups : Groups) (o : Outcome),
      matchGroups config forest groups = .ok o →
      (∀ side, unitsIn (volumesOf (groups.get side)) < Volume.limit →
        o.receipt.matchedVolume.units + (o.receipt.left.get side).units =
          unitsIn (volumesOf (groups.get side))) ∧
      ∀ b, ∃ o', matchGroups (config.withReportExhausted b) forest groups = .ok o' ∧
        o'.receipt.matchedVolume = o.receipt.matchedVolume ∧
        ∀ side, o'.receipt.left.get side = o.receipt.left.get side) ∧
    (∀ o : Outcome, o.receipt.matchedVolume.units =
        min (unitsIn (o.pairs.map (·.volume))) (Volume.limit - 1) ∧
      ∀ side, (o.receipt.left.get side).units =
        min (unitsIn (volumesOf (o.leftovers.get side))) (Volume.limit - 1)) ∧
    ∀ o o' : Outcome, (Relisted Match.volume o.pairs o'.pairs →
        o.receipt.matchedVolume = o'.receipt.matchedVolume) ∧
      ∀ side, Relisted Entity.volume (o.leftovers.get side) (o'.leftovers.get side) →
        o.receipt.left.get side = o'.receipt.left.get side := by
  refine ⟨?_, fun o => ⟨o.units_matchedVolume, o.units_left⟩,
    fun o o' => ⟨Outcome.matchedVolume_congr, fun side => Outcome.left_congr⟩⟩
  intro config forest groups o h
  obtain ⟨l, rfl, ha, rfl⟩ := matchGroups_eq_ok_iff.1 h
  refine ⟨fun side => Plan.units_settle (Plan.fits_of_mem ha) config, fun b => ?_⟩
  refine ⟨_, matchGroups_eq_ok_iff.2 ⟨l, rfl, ha, rfl⟩, rfl, fun side => Outcome.left_congr ?_⟩
  have hlisted := (Plan.ledgerAfter l (Plan.ofForest l forest)).relisted_leftovers side
  exact (hlisted _).trans (hlisted _).symm

/-- All supply is used up, and a demand entity holds all that a volume can, so that only the supply
side is within the limit; the lists may be turned around and have a zero put in front. -/
theorem receipt_balances_sample :
    sampleOutcome.receipt.matchedVolume.units + (sampleOutcome.receipt.left.get .supply).units = 14 ∧
    (∃ o', matchGroups .compatible sampleForest sampleGroups = .ok o' ∧
      o'.receipt.matchedVolume = sampleOutcome.receipt.matchedVolume) ∧
    sampleOutcome.receipt.left.get .demand =
      (Outcome.receipt ⟨[], ⟨⟨"b", .zero⟩ :: sampleOutcome.leftovers.demand.reverse, []⟩⟩).left.get
        .demand := by
  obtain ⟨hrun, -, hlists⟩ := receipt_balances
  refine ⟨(hrun _ _ _ _ (matchGroups_sample .strict)).1 .supply (by decide), ?_, ?_⟩
  · obtain ⟨o', ho', hmatched, -⟩ := (hrun _ _ _ _ (matchGroups_sample .lenient)).2 true
    exact ⟨o', ho', hmatched⟩
  · exact (hlists _ _).2 .demand (by unfold Relisted; decide)

end FairShare
