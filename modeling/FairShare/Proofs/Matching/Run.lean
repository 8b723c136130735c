import FairShare.Matching
import FairShare.Proofs.Plan.Admissible
import FairShare.Proofs.Tier.Exchange
import Mathlib.Data.List.Forall2

/-!
# Matchings tier by tier

A matching that is not refused is the plan of an admitted forest carried out on the ledger of the
groups (`matchGroups_eq_ok_iff`). Tiers run one after the other, so a plan in two parts is the second
part carried out on what the first one leaves (`Plan.ledgerAfter_append`), and every tier of the plan
books its matches on the ledger (`Plan.books_ledgerAfter`).
-/

namespace FairShare

theorem matchGroups_eq_ok_iff {config : Config} {forest : Forest} {groups : Groups} {o : Outcome} :
    matchGroups config forest groups = .ok o ↔ ∃ l : Ledger, l.slots = groups ∧
      Plan.Admits l config.references forest ∧ o = (Plan.ofForest l forest).settle config l := by
  have hbind : matchGroups config forest groups = (Ledger.ofGroups groups).bind fun l =>
    (Plan.resolve l config.references forest).bind fun plan => .ok (plan.settle config l) := rfl
  simp only [hbind, Plan.bind_eq_ok_iff, Ledger.ofGroups_eq_ok_iff, Plan.resolve_eq_ok_iff,
    Except.ok.injEq]
  constructor
  · rintro ⟨l, hl, _, ⟨ha, rfl⟩, rfl⟩; exact ⟨l, hl, ha, rfl⟩
  · rintro ⟨l, hl, ha, rfl⟩; exact ⟨l, hl, _, ⟨ha, rfl⟩, rfl⟩

/-- Two tiers. The second one asks again for supply that the first one has used up. -/
def sampleForest : Forest :=
  [[⟨"a", some [[.leaf "x"], [.leaf "y"]]⟩, .ofPeers "b" ["x", "y"]],
    [⟨"c", some [[.leaf "x"], [.leaf "z"]]⟩, .ofPeers "a" ["z", "y"]]]

def sampleGroups : Groups :=
  ⟨[⟨"a", .clamp 9⟩, ⟨"b", .clamp 5⟩, ⟨"c", .clamp Volume.limit⟩],
    [⟨"x", .clamp 7⟩, ⟨"y", .clamp 4⟩, ⟨"z", .clamp 3⟩]⟩

def sampleOutcome : Outcome where
  pairs := [⟨"a", "x", .clamp 4⟩, ⟨"a", "y", .clamp 2⟩, ⟨"b", "x", .clamp 3⟩, ⟨"b", "y", .clamp 2⟩,
    ⟨"c", "z", .clamp 2⟩, ⟨"a", "z", .clamp 1⟩]
  leftovers := ⟨[⟨"a", .clamp 2⟩, ⟨"c", .clamp (Volume.limit - 3)⟩], []⟩

theorem matchGroups_sample (references : Policy) :
    matchGroups ⟨references, false⟩ sampleForest sampleGroups = .ok sampleOutcome := by
  have h : (matchGroups ⟨references, false⟩ sampleForest sampleGroups).toOption =
      some sampleOutcome := by
    cases references <;> decide +kernel
  cases hm : matchGroups ⟨references, false⟩ sampleForest sampleGroups with
  | error e => rw [hm] at h; cases h
  | ok o => rw [hm] at h; rw [Option.some.inj h]

namespace Plan
variable {l : Ledger} {plan : Plan}

def ledgerAfter (l : Ledger) (plan : Plan) : Ledger := (plan.resolveTiers l).2

def pairsOf (l : Ledger) (plan : Plan) : List Match := (plan.resolveTiers l).1.flatMap (·.pairs)

theorem settle_eq (config : Config) (l : Ledger) (plan : Plan) : plan.settle config l =
    ⟨plan.pairsOf l, (plan.ledgerAfter l).leftovers config.reportExhausted⟩ := rfl

theorem ledgerAfter_cons (l : Ledger) (tier : TierPlan) (plan : Plan) :
    ledgerAfter l (tier :: plan) = ledgerAfter (tier.resolve l).ledger plan := rfl

theorem pairsOf_cons (l : Ledger) (tier : TierPlan) (plan : Plan) :
    pairsOf l (tier :: plan) = (tier.resolve l).pairs ++ pairsOf (tier.resolve l).ledger plan := rfl

theorem ledgerAfter_append (l : Ledger) (p q : Plan) :
    ledgerAfter l (p ++ q) = ledgerAfter (ledgerAfter l p) q := by
  induction p generalizing l with
  | nil => rfl
  | cons tier p ih => rw [List.cons_append, ledgerAfter_cons, ih, ledgerAfter_cons]

theorem pairsOf_append (l : Ledger) (p q : Plan) :
    pairsOf l (p ++ q) = pairsOf l p ++ pairsOf (ledgerAfter l p) q := by
  induction p generalizing l with
  | nil => rfl
  | cons tier p ih =>
    rw [List.cons_append, pairsOf_cons, ih, pairsOf_cons, ledgerAfter_cons, List.append_assoc]

theorem books_ledgerAfter (h : ∀ tier ∈ plan, TierPlan.Fits tier l) :
    l.Books (plan.pairsOf l) (plan.ledgerAfter l) := by
  induction plan generalizing l with
  | nil => exact .refl l
  | cons tier plan ih =>
    obtain ⟨htier, hplan⟩ := List.forall_mem_cons.1 h
    exact (TierPlan.books_resolve htier).trans (ih fun t ht => (hplan t ht).resolve htier)

/-- Every tier is resolved on a ledger of the same entities, and what it has used up stays so. -/
theorem forall₂_resolveTiers (h : ∀ tier ∈ plan, TierPlan.Fits tier l) :
    List.Forall₂ (fun tier t => ∃ mid : Ledger, (∀ side, mid.ids side = l.ids side) ∧
      TierPlan.Fits tier mid ∧ t = tier.resolve mid ∧ t.ledger.DrainsTo (plan.ledgerAfter l))
      plan (plan.resolveTiers l).1 := by
  induction plan generalizing l with
  | nil => exact .nil
  | cons first plan ih =>
    obtain ⟨hfirst, hplan⟩ := List.forall_mem_cons.1 h
    have hfits : ∀ tier ∈ plan, TierPlan.Fits tier (first.resolve l).ledger := fun t ht =>
      (hplan t ht).resolve hfirst
    refine .cons ⟨l, fun _ => rfl, hfirst, rfl, (books_ledgerAfter hfits).drainsTo⟩
      ((ih hfits).imp ?_)
    rintro tier t ⟨mid, hids, ht, rfl, hdrains⟩
    have hids' := (TierPlan.books_resolve hfirst).ids_eq
    exact ⟨mid, fun side => (hids side).trans (hids' side), ht, rfl, hdrains⟩

end Plan
end FairShare
