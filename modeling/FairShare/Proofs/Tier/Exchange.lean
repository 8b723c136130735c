import FairShare.Proofs.Ledger.Books
import FairShare.Proofs.Tier.Filling

/-!
# What a tier exchanges

The matches of a tier carry the flows of its edges: the units in the matches of any kind are the
units along the edges of that kind (`unitsIn_pairs`). Resolving a tier therefore books its matches
on the ledger (`TierPlan.books_resolve`), whatever the rounds were.
-/

namespace FairShare
namespace TierPlan
variable {tier : TierPlan} {l : Ledger} {edges : List Edge} {flows : List Volume}

/-- The matches that `P` picks have the units of the edges that `p` picks. -/
theorem unitsIn_pairs {P : Match → Bool} {p : Edge → Bool}
    (h : ∀ e ∈ edges, ∀ v, P ⟨l.id .demand e.demand, l.id .supply e.supply, v⟩ = p e) :
    unitsIn (((pairs l edges flows).filter P).map (·.volume)) = unitsAlong p (edges.zip flows) := by
  induction edges generalizing flows with
  | nil => rfl
  | cons e edges ih =>
    cases flows with
    | nil => rfl
    | cons v flows =>
      have hrest := @ih flows fun e' he' => h e' (List.mem_cons_of_mem _ he')
      rw [pairs] at hrest ⊢
      rw [List.zip_cons_cons, unitsAlong_cons, List.filterMap_cons]
      by_cases hz : v.isZero
      · rw [if_pos hz, hrest, Volume.isZero_iff.1 hz]; split <;> omega
      · rw [if_neg hz]
        simp only [List.filter_cons, h e (by simp) v]
        by_cases hp : p e
        · rw [if_pos hp, if_pos hp, List.map_cons, unitsIn, hrest]
        · rw [if_neg hp, if_neg hp, hrest, Nat.zero_add]

theorem exchanged_pairs (ht : tier.Fits l) {side : Side} {i : Nat} (hi : i < l.size side) :
    exchanged (pairs l tier.edges flows) side (l.id side i) =
      unitsAlong (·.isAt side i) (tier.edges.zip flows) := by
  refine unitsIn_pairs fun e he v => ?_
  have hentity : Match.entity ⟨l.id .demand e.demand, l.id .supply e.supply, v⟩ side =
      l.id side (e.ends.get side) := by cases side <;> rfl
  rw [Bool.eq_iff_iff, hentity, beq_iff_eq, Ledger.id_inj (ht.lt_size he side) hi, Edge.isAt_iff]

theorem pairs_resolve (tier : TierPlan) (l : Ledger) :
    (tier.resolve l).pairs = pairs l tier.edges (tier.fill l).2.flows := rfl

/-- The two share what both want, and what the second leaves of `y` is for the first once `x` is gone. -/
theorem pairs_resolve_sample : (sampleTier.resolve sampleLedger).pairs =
    [⟨"a", "x", .clamp 4⟩, ⟨"a", "y", .clamp 2⟩, ⟨"b", "x", .clamp 3⟩, ⟨"b", "y", .clamp 2⟩] := by
  decide +kernel

theorem ledger_resolve (tier : TierPlan) (l : Ledger) :
    (tier.resolve l).ledger = (tier.fill l).2.ledger := rfl

theorem pairs_congr {m : Ledger} (hids : ∀ side, m.ids side = l.ids side)
    (edges : List Edge) (flows : List Volume) : pairs m edges flows = pairs l edges flows := by
  rw [pairs, pairs]
  simp only [Ledger.id_congr (hids _)]

theorem books_resolve (ht : tier.Fits l) :
    l.Books (tier.resolve l).pairs (tier.resolve l).ledger := by
  have hb := balanced_fill ht
  refine .of_slots hb.ids fun side i hi => ?_
  rw [pairs_resolve, exchanged_pairs ht hi]
  exact hb.balance side i

theorem Fits.resolve {first : TierPlan} (ht : tier.Fits l) (hfirst : first.Fits l) :
    tier.Fits (first.resolve l).ledger :=
  ht.congr (books_resolve hfirst).ids_eq

end TierPlan
end FairShare
