import FairShare.Proofs.Tier.Exchange

/-!
# Max-min fairness

Filling raises all active edges together. `Filling.Leveled` is the invariant: no flow between two
slots is more than one unit above the level that the increments so far add up to, and none between
two live slots is above it at all; an edge that was active from the start is on the level as long as
it is active, and once it no longer is, one of its ends is exhausted and has no flow more than one
unit above that of the edge. A full tier has no active edge, so each edge that was active at the start
has such an end.
-/

namespace FairShare
namespace Filling

abbrev between (tier : TierPlan) (f : Filling) (ends : BySide Nat) : Nat :=
  f.along tier.edges (·.joins ends)

/-- The fairness of a filling of a tier, `n` being the sum of the increments. -/
structure Leveled (tier : TierPlan) (l : Ledger) (f : Filling) (n : Nat) : Prop where
  le_succ : ∀ ends, f.between tier ends ≤ n + 1
  le_of_live : ∀ ends, (∀ side, f.ledger.isLive side (ends.get side)) → f.between tier ends ≤ n
  reached : ∀ e ∈ tier.edges, e.isActive l → (e.isActive f.ledger ∧ f.between tier e.ends = n) ∨
    ∃ side, ¬ f.ledger.isLive side (e.ends.get side) ∧ ∀ ends, ends.get side = e.ends.get side →
      f.between tier ends ≤ f.between tier e.ends + 1

variable {tier : TierPlan} {l : Ledger} {f : Filling} {r : Round} {n : Nat}

theorem leveled_start (tier : TierPlan) (l : Ledger) :
    (start tier.edges l).Leveled tier l 0 := by
  refine ⟨fun ends => ?_, fun ends _ => ?_, fun e _ ha => .inl ⟨ha, along_start ..⟩⟩
  · rw [between, along_start]; exact Nat.zero_le _
  · exact Nat.le_of_eq (along_start ..)

theorem exists_not_isLive {e : Edge} (ha : e.isActive f.ledger)
    (hn : ¬ e.isActive (f.apply tier.edges r).ledger) :
    ∃ side, ¬ (f.apply tier.edges r).ledger.isLive side (e.ends.get side) := by
  apply Classical.byContradiction
  intro hno
  refine hn (Edge.isActive_iff.2 ⟨fun side => ?_, fun s hs => ?_⟩)
  · exact Classical.byContradiction fun h => hno ⟨side, h⟩
  · exact not_isLive_apply r ((Edge.isActive_iff.1 ha).2 s hs)

theorem granted_eq_zero {side : Side} {ends : BySide Nat}
    (h : ¬ f.ledger.isLive side (ends.get side)) :
    r.granted tier.edges f.ledger (·.joins ends) = 0 :=
  (spent_of_not_isLive h (fun _ he => congrArg (BySide.get · side) (Edge.joins_iff.1 he)) _).granted r

section
variable (ht : tier.Fits l) (hb : f.Balanced tier.edges l)
  (hr : Round.next? tier.edges (tier.holders l) f.ledger = some r)
include ht hb hr

theorem between_apply (ends : BySide Nat) : (f.apply tier.edges r).between tier ends =
    f.between tier ends + r.granted tier.edges f.ledger (·.joins ends) :=
  hb.along_apply ht hr _

/-- Two slots that stay live are granted no more than the level. -/
theorem granted_le_level {ends : BySide Nat}
    (hlive : ∀ side, (f.apply tier.edges r).ledger.isLive side (ends.get side)) :
    r.granted tier.edges f.ledger (·.joins ends) ≤ r.level := by
  refine Round.granted_joins_le_level (hb.fits ht) (hb.holders_eq tier ▸ hr) fun side => ?_
  have := Ledger.isLive_iff.1 (hlive side)
  rw [remaining_apply] at this
  omega

namespace Leveled

theorem le_succ_apply (h : f.Leveled tier l n) (ends : BySide Nat) :
    (f.apply tier.edges r).between tier ends ≤ n + r.level + 1 := by
  rw [between_apply ht hb hr]
  by_cases hlive : ∀ side, f.ledger.isLive side (ends.get side)
  · have := h.le_of_live ends hlive
    have := Round.granted_joins_le (hb.fits ht) (hb.holders_eq tier ▸ hr) ends
    omega
  · obtain ⟨side, hside⟩ := Classical.not_forall.1 hlive
    have := h.le_succ ends
    rw [granted_eq_zero hside]
    omega

theorem le_of_live_apply (h : f.Leveled tier l n) {ends : BySide Nat}
    (hlive : ∀ side, (f.apply tier.edges r).ledger.isLive side (ends.get side)) :
    (f.apply tier.edges r).between tier ends ≤ n + r.level := by
  have := h.le_of_live ends fun side =>
    Classical.byContradiction fun hdead => not_isLive_apply r hdead (hlive side)
  have := granted_le_level ht hb hr hlive
  rw [between_apply ht hb hr]; omega

/-- A round raises the level by its increment. -/
theorem apply (h : f.Leveled tier l n) : (f.apply tier.edges r).Leveled tier l (n + r.level) := by
  refine ⟨h.le_succ_apply ht hb hr, fun ends => h.le_of_live_apply ht hb hr, fun e he ha => ?_⟩
  rcases h.reached e he ha with ⟨hact, hflow⟩ | ⟨side, hdead, hmax⟩
  · have hge := Round.level_le_granted (hb.holders_eq tier ▸ hr) he hact
    by_cases hact' : e.isActive (f.apply tier.edges r).ledger
    · have := granted_le_level ht hb hr (Edge.isActive_iff.1 hact').1
      exact .inl ⟨hact', by rw [between_apply ht hb hr]; omega⟩
    · -- the edge was on the level and has got its share, so nothing is more than a unit above it
      obtain ⟨side, hdead⟩ := exists_not_isLive hact hact'
      refine .inr ⟨side, hdead, fun ends _ => ?_⟩
      have := h.le_succ_apply ht hb hr ends
      rw [between_apply ht hb hr e.ends]; omega
  · refine .inr ⟨side, not_isLive_apply r hdead, fun ends hends => ?_⟩
    have := hmax ends hends
    rw [between_apply ht hb hr, between_apply ht hb hr, granted_eq_zero (hends ▸ hdead)]
    omega

end Leveled
end

end Filling

namespace TierPlan
variable {tier : TierPlan} {l : Ledger}

theorem exists_leveled_fill (ht : tier.Fits l) : ∃ n, (tier.fill l).2.Leveled tier l n :=
  (fill_spec ht (P := fun f => ∃ n, f.Leveled tier l n) ⟨0, Filling.leveled_start tier l⟩
    fun _ r hb ⟨n, h⟩ hr => ⟨n + r.level, Filling.Leveled.apply ht hb hr h⟩).2

/-- The demand and supply slots that a tier pairs. -/
def couples (tier : TierPlan) : List (BySide Nat) :=
  tier.flatMap fun m => m.targets.flatten.map fun s => ⟨m.demand, s⟩

end TierPlan

/-- The units in the matches of a tier between two slots. -/
def TierOutcome.flow (t : TierOutcome) (ends : BySide Nat) : Nat :=
  unitsIn ((t.pairs.filter fun m =>
    m.demand == t.ledger.id .demand ends.demand && m.supply == t.ledger.id .supply ends.supply).map
      (·.volume))

namespace TierPlan
variable {tier : TierPlan} {l : Ledger}

theorem flow_resolve (ht : tier.Fits l) {ends : BySide Nat} (hd : ends.demand < l.size .demand)
    (hs : ends.supply < l.size .supply) :
    (tier.resolve l).flow ends = (tier.fill l).2.between tier ends := by
  have hids := (balanced_fill ht).ids
  refine unitsIn_pairs (l := l) fun e he v => ?_
  have hde : e.demand < l.size .demand := ht.lt_size he .demand
  have hse : e.supply < l.size .supply := ht.lt_size he .supply
  rw [ledger_resolve, Ledger.id_congr (hids .demand), Ledger.id_congr (hids .supply),
    Bool.eq_iff_iff, Bool.and_eq_true, beq_iff_eq, beq_iff_eq, Ledger.id_inj hde hd,
    Ledger.id_inj hse hs, Edge.joins_iff, BySide.ext_iff]
  rfl

theorem lt_size_of_mem_couples (ht : tier.Fits l) {ends : BySide Nat} (h : ends ∈ tier.couples) :
    ends.demand < l.size .demand ∧ ends.supply < l.size .supply := by
  obtain ⟨m, hm, h⟩ := List.mem_flatMap.1 h
  obtain ⟨s, hs, rfl⟩ := List.mem_map.1 h
  obtain ⟨peers, hp, hs⟩ := List.mem_flatten.1 hs
  exact ⟨ht.demand_lt m hm, ht.supply_lt m hm peers hp s hs⟩

/-- A live demand entity and a live supply entity of the first sub-tier in which it finds anything:
one of the two is exhausted by the tier, and then takes part in no pair whose flow is more than one
unit above the flow between the two. -/
theorem resolve_maxMinFair (ht : tier.Fits l) {m : Member} (hm : m ∈ tier) {s : Nat}
    (hs : s ∈ m.preferred l) (hd : l.isLive .demand m.demand) (hl : l.isLive .supply s) :
    ∃ side, (tier.resolve l).ledger.remaining side (BySide.get ⟨m.demand, s⟩ side) = .zero ∧
      ∀ ends ∈ tier.couples, ends.get side = BySide.get ⟨m.demand, s⟩ side →
        (tier.resolve l).flow ends ≤ (tier.resolve l).flow ⟨m.demand, s⟩ + 1 := by
  obtain ⟨e, he, hends, hact⟩ := exists_isActive hm hs hd hl
  obtain ⟨n, hlevel⟩ := exists_leveled_fill ht
  have hflow : (tier.resolve l).flow ⟨m.demand, s⟩ = (tier.fill l).2.between tier ⟨m.demand, s⟩ :=
    flow_resolve ht (ht.demand_lt m hm) (Ledger.lt_size_of_isLive hl)
  have hdone : ¬ e.isActive (tier.fill l).2.ledger := fun h => by
    have : e ∈ Round.activeEdges tier.edges (tier.fill l).2.ledger :=
      Round.mem_activeEdges.2 ⟨he, h⟩
    rw [activeEdges_fill ht] at this
    cases this
  rcases hlevel.reached e he hact with ⟨h, -⟩ | ⟨side, hdead, hmax⟩
  · exact absurd h hdone
  · rw [hends] at hdead hmax
    refine ⟨side, Volume.ext (Ledger.not_isLive_iff.1 hdead), fun ends hmem heq => ?_⟩
    obtain ⟨hlt, hlt'⟩ := lt_size_of_mem_couples ht hmem
    rw [flow_resolve ht hlt hlt', hflow]
    exact hmax ends heq

/-- Of the supply that both members want, the first gets one unit more than the second. -/
theorem resolve_maxMinFair_sample : sampleTier.Fits sampleLedger ∧
    sampleTier.couples = [⟨0, 0⟩, ⟨0, 1⟩, ⟨1, 0⟩, ⟨1, 1⟩] ∧
    sampleTier.couples.map (sampleTier.resolve sampleLedger).flow = [4, 2, 3, 2] ∧
    ∃ side, (sampleTier.resolve sampleLedger).ledger.remaining side (BySide.get ⟨1, 0⟩ side) = .zero ∧
      ∀ ends ∈ sampleTier.couples, ends.get side = BySide.get ⟨1, 0⟩ side →
        (sampleTier.resolve sampleLedger).flow ends ≤
          (sampleTier.resolve sampleLedger).flow ⟨1, 0⟩ + 1 := by
  refine ⟨fits_sample, by decide, by decide +kernel, ?_⟩
  exact resolve_maxMinFair fits_sample (m := ⟨1, [[0, 1]]⟩) (by decide) (by decide) (by decide)
    (by decide)

end TierPlan
end FairShare
