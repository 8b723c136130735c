import FairShare.Proofs.Ledger.Checked
import FairShare.Proofs.Tier.Termination
import FairShare.Proofs.Volume.Printing

/-!
# Filling with every check made

A checked filling gives nothing at all where a plain one would cut a number or stop early: a
transfer gives nothing if one of its slots does not hold the volume, a sum or a part if it is no
volume, and a step if edges are active but nobody can settle. Otherwise it does what the plain one
does (`Filling.step?_eq_some_iff`), so it ends as that does. `Filling.Unclipped` says of a filling
what is checked in the step from it. It holds of every balanced filling
(`Filling.Balanced.unclipped`), for the ledger has what a round grants along all the edges of a slot
together, and so a filling with every check made is the plain one (`TierPlan.resolve?_eq`).
-/

namespace FairShare

/-! ### Checked arithmetic -/

namespace Volume

/-- The parts of a split, each computed without a bound and then checked. -/
def split? (v : Volume) (n : Nat) : Option (List Volume) :=
  (List.range n).mapM fun i => ofNat? (if i < v.units % n then v.units / n + 1 else v.units / n)

/-- Adds volumes to volumes, unless a sum is out of range. -/
def addAll? : List Volume → List Volume → Option (List Volume)
  | v :: vs, w :: ws => do
    let sum ← v.add? w
    let sums ← addAll? vs ws
    some (sum :: sums)
  | _, _ => some []

/-- A part is at most the whole. -/
theorem split?_eq (v : Volume) (n : Nat) : v.split? n = some (v.split n) := by
  have hpart : (fun i => ofNat? (if i < v.units % n then v.units / n + 1 else v.units / n)) =
      fun i => some (v.part n i) := by
    funext i
    exact ofNat?_units (v.part n i)
  rw [split?, hpart]
  exact List.mapM_pure

theorem add?_eq_some_iff_addSat {v w s : Volume} :
    v.add? w = some s ↔ s = v.addSat w ∧ v.units + w.units < limit := by
  rw [add?_eq_some_iff, Volume.ext_iff, units_addSat]
  have := s.units_lt
  omega

theorem addAll?_eq_some_iff {vs ws sums : List Volume} : addAll? vs ws = some sums ↔
    sums = List.zipWith addSat vs ws ∧ ∀ a ∈ vs.zip ws, a.1.units + a.2.units < limit := by
  induction vs generalizing ws sums with
  | nil => simp [addAll?, eq_comm]
  | cons v vs ih =>
    cases ws with
    | nil => simp [addAll?, eq_comm]
    | cons w ws =>
      simp only [addAll?, Option.bind_eq_bind, Option.bind_eq_some_iff, Option.some.injEq,
        add?_eq_some_iff_addSat, ih, List.zipWith_cons_cons, List.zip_cons_cons,
        List.forall_mem_cons]
      constructor
      · rintro ⟨_, ⟨rfl, hadd⟩, _, ⟨rfl, hrest⟩, rfl⟩
        exact ⟨rfl, hadd, hrest⟩
      · rintro ⟨rfl, hadd, hrest⟩
        exact ⟨_, ⟨rfl, hadd⟩, _, ⟨rfl, hrest⟩, rfl⟩

end Volume

/-! ### Checked steps -/

/-- What each edge gets in a round, if all of it are volumes. -/
def Round.grants? (edges : List Edge) (ledger : Ledger) : Round → Option (List Volume)
  | uniform n increment => some (grants edges ledger (uniform n increment))
  | settle h held peers =>
    (held.split? peers).map fun parts => deal (fun e => e.isActive ledger && h.owns e) parts edges

theorem Round.grants?_eq (edges : List Edge) (ledger : Ledger) (r : Round) :
    r.grants? edges ledger = some (r.grants edges ledger) := by
  cases r with
  | uniform n increment => rfl
  | settle h held peers => rw [grants?, Volume.split?_eq]; rfl

/-- Where there is nothing that every active edge could be given, there is somebody to settle. -/
def Round.HasHolder (edges : List Edge) (holders : List Holder) (ledger : Ledger) : Prop :=
  activeEdges edges ledger ≠ [] →
    (leastOffer ledger (sharers holders (activeEdges edges ledger))).isZero →
      (firstShort? ledger (sharers holders (activeEdges edges ledger))).isSome

theorem Round.hasHolder_iff {edges : List Edge} {holders : List Holder} {l : Ledger} :
    HasHolder edges holders l ↔ (next? edges holders l = none → activeEdges edges l = []) := by
  rw [HasHolder, next?, ofActive?]
  by_cases hactive : activeEdges edges l = []
  · simp [hactive]
  · by_cases hzero : (leastOffer l (sharers holders (activeEdges edges l))).isZero
    · simp [hactive, hzero, Option.isSome_iff_ne_none]
    · simp [hactive, hzero]

namespace Filling

section
variable (edges : List Edge) (holders : List Holder)

/-- Carries out a round, unless a slot is overdrawn or a number out of range. -/
def carryOut? (f : Filling) (r : Round) : Option Filling := do
  let granted ← r.grants? edges f.ledger
  let ledger ← f.ledger.transferAll? (edges.zip granted)
  let flows ← Volume.addAll? f.flows granted
  some ⟨ledger, flows⟩

/-- The round that comes next, if any, and the filling after it; nothing if a check fails. -/
def step? (f : Filling) : Option (Option (Round × Filling)) :=
  match Round.next? edges holders f.ledger with
  | some r => (f.carryOut? edges r).map fun g => some (r, g)
  | none => if (Round.activeEdges edges f.ledger).isEmpty then some none else none

/-- What is checked in the step from a filling. -/
structure Unclipped (f : Filling) : Prop where
  holder : Round.HasHolder edges holders f.ledger
  transfers : ∀ r, Round.next? edges holders f.ledger = some r →
    f.ledger.Covers (edges.zip (r.grants edges f.ledger))
  flows : ∀ r, Round.next? edges holders f.ledger = some r →
    ∀ a ∈ f.flows.zip (r.grants edges f.ledger), a.1.units + a.2.units < Volume.limit

variable {edges holders} {f g : Filling} {r : Round} {s : Option (Round × Filling)}

theorem carryOut?_eq_some_iff : f.carryOut? edges r = some g ↔ g = f.apply edges r ∧
    f.ledger.Covers (edges.zip (r.grants edges f.ledger)) ∧
    ∀ a ∈ f.flows.zip (r.grants edges f.ledger), a.1.units + a.2.units < Volume.limit := by
  simp only [carryOut?, Round.grants?_eq, Option.bind_eq_bind, Option.bind_some,
    Option.bind_eq_some_iff, Ledger.transferAll?_eq_some_iff, Volume.addAll?_eq_some_iff,
    Option.some.injEq]
  constructor
  · rintro ⟨_, ⟨rfl, htransfers⟩, _, ⟨rfl, hflows⟩, rfl⟩
    exact ⟨rfl, htransfers, hflows⟩
  · rintro ⟨rfl, htransfers, hflows⟩
    exact ⟨_, ⟨rfl, htransfers⟩, _, ⟨rfl, hflows⟩, rfl⟩

theorem step?_eq_some_iff : f.step? edges holders = some s ↔
    s = f.step edges holders ∧ f.Unclipped edges holders := by
  unfold step? step
  -- with a round there is somebody to settle; without one, only if no edge is active
  cases hr : Round.next? edges holders f.ledger with
  | some r =>
    simp only [Option.map_some, Option.map_eq_some_iff, carryOut?_eq_some_iff]
    constructor
    · rintro ⟨_, ⟨rfl, htransfers, hflows⟩, rfl⟩
      refine ⟨rfl, Round.hasHolder_iff.2 (by simp [hr]), ?_, ?_⟩
      · intro r' hr'
        cases hr.symm.trans hr'
        exact htransfers
      · intro r' hr'
        cases hr.symm.trans hr'
        exact hflows
    · rintro ⟨rfl, h⟩
      exact ⟨_, ⟨rfl, h.transfers r hr, h.flows r hr⟩, rfl⟩
  | none =>
    simp only [Option.map_none]
    split
    · next hactive =>
      have hholder : Round.HasHolder edges holders f.ledger :=
        Round.hasHolder_iff.2 fun _ => List.isEmpty_iff.1 hactive
      rw [Option.some_inj, eq_comm]
      refine (and_iff_left ⟨hholder, ?_, ?_⟩).symm
      · simp [hr]
      · simp [hr]
    · next hactive =>
      refine iff_of_false nofun fun h => hactive ?_
      exact List.isEmpty_iff.2 (Round.hasHolder_iff.1 h.2.holder hr)

end

section
variable (edges : List Edge) (holders : List Holder)

/-- The rounds that follow and what they lead to, if no check fails. -/
def run? (f : Filling) : Option (List Round × Filling) :=
  match _ : f.step? edges holders with
  | none => none
  | some none => some ([], f)
  | some (some (r, next)) => (run? next).map fun s => (r :: s.1, s.2)
termination_by f.ledger.supplyLeft
decreasing_by exact supplyLeft_step_lt (step?_eq_some_iff.1 ‹_›).1.symm

variable {edges holders} {f g : Filling} {r : Round}

theorem run?_of_none (h : f.step? edges holders = some none) :
    f.run? edges holders = some ([], f) := by
  rw [run?]
  split
  · next hs => cases h.symm.trans hs
  · rfl
  · next hs => cases h.symm.trans hs

theorem run?_of_some (h : f.step? edges holders = some (some (r, g))) :
    f.run? edges holders = (g.run? edges holders).map fun s => (r :: s.1, s.2) := by
  rw [run?]
  split
  · next hs => cases h.symm.trans hs
  · next hs => cases h.symm.trans hs
  · next hs =>
    cases h.symm.trans hs
    rfl

end

/-! ### No check fails -/

section
variable {tier : TierPlan} {l : Ledger} {f : Filling}

/-- Nothing is cut in a step from a balanced filling. -/
theorem Balanced.unclipped (hb : f.Balanced tier.edges l) (ht : tier.Fits l) :
    f.Unclipped tier.edges (tier.holders l) where
  holder := by
    rw [hb.holders_eq tier]
    exact Round.hasHolder_iff.2 (Round.next?_eq_none_iff (hb.fits ht)).1
  transfers r hr := Ledger.covers_iff.2 (hb.granted_le ht hr)
  flows r hr := hb.add_lt_of_le (hb.granted_le ht hr .demand)

/-- A checked filling takes every round that the plain one does. -/
theorem run?_eq (ht : tier.Fits l) (hb : f.Balanced tier.edges l) :
    f.run? tier.edges (tier.holders l) = some (f.run tier.edges (tier.holders l)) := by
  fun_induction run tier.edges (tier.holders l) f with
  | case1 f h => exact run?_of_none (step?_eq_some_iff.2 ⟨h.symm, hb.unclipped ht⟩)
  | case2 f r next h rounds last hrun ih =>
    have hstep := step?_eq_some_iff.2 ⟨h.symm, hb.unclipped ht⟩
    obtain ⟨hr, rfl⟩ := step_eq_some_iff.1 h
    rw [run?_of_some hstep, ih (hb.apply ht hr), hrun]
    rfl

end
end Filling

namespace TierPlan
variable {tier : TierPlan} {l : Ledger}

/-- Fills a tier from what the ledger holds, if no check fails. -/
def resolve? (tier : TierPlan) (ledger : Ledger) : Option TierOutcome :=
  ((Filling.start tier.edges ledger).run? tier.edges (tier.holders ledger)).map fun s =>
    ⟨tier.length, s.1, pairs ledger tier.edges s.2.flows, s.2.ledger⟩

theorem resolve?_eq (ht : tier.Fits l) : tier.resolve? l = some (tier.resolve l) := by
  rw [resolve?, Filling.run?_eq ht (Filling.balanced_start tier.edges l)]
  rfl

theorem unclipped_stage (ht : tier.Fits l) {n : Nat} {f : Filling} (h : tier.stage l n = some f) :
    f.Unclipped tier.edges (tier.holders l) :=
  ((Filling.balanced_start tier.edges l).after? ht h).unclipped ht

end TierPlan
end FairShare
