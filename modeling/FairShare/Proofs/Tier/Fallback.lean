import FairShare.Proofs.Tier.Fairness

/-!
# Further sub-tiers for a member

A member that names more sub-tiers behind those it has gets the same from each supply that it named
before, and no less in all (`TierPlan.resolve_fallback`). What is added lies behind all that the
member named before. As long as some of that is left, or the member itself is exhausted, no added
edge is active (`TierPlan.Extends.activeEdges_eq`), so the two tiers go through the same rounds
(`Filling.Alike.apply`). Once all of it is used up, the flows along its edges are what they will be,
and the tier without the addition has nothing more for the member (`Filling.Alike.run`).
-/

namespace FairShare

def Member.withFallback (m : Member) (added : List (List Nat)) : Member :=
  { m with targets := m.targets ++ added }

/-- Whether a member has no use yet for anything behind its sub-tiers. -/
def Member.Waits (l : Ledger) (m : Member) : Prop :=
  l.isLive .demand m.demand → ∃ s ∈ m.targets.flatten, l.isLive .supply s

/-- The tiers are the same, but that `m` has further sub-tiers in the second one. -/
def TierPlan.Extends (tier wider : TierPlan) (m : Member) : Prop :=
  ∃ before after added, tier = before ++ m :: after ∧
    wider = before ++ m.withFallback added :: after

namespace TierPlan.Extends
variable {tier wider : TierPlan} {m : Member} {l : Ledger}

theorem mem (hx : tier.Extends wider m) : m ∈ tier := by
  obtain ⟨before, after, added, rfl, -⟩ := hx
  simp

/-- The edges that are added lead to nothing before the member has used up the others. -/
theorem edges (hx : tier.Extends wider m) : ∃ first more last, tier.edges = first ++ last ∧
    wider.edges = first ++ (more ++ last) ∧
    ∀ e ∈ more, e.demand = m.demand ∧ m.targets.flatten ⊆ e.ahead := by
  obtain ⟨before, after, added, rfl, rfl⟩ := hx
  refine ⟨before.edges ++ edgesFrom before.length m.demand [] m.targets,
    edgesFrom before.length m.demand m.targets.flatten added,
    (after.zipIdx (before.length + 1)).flatMap fun n => edgesFrom n.2 n.1.demand [] n.1.targets,
    ?_, ?_, fun e he => ?_⟩
  · simp only [TierPlan.edges, List.zipIdx_append, List.zipIdx_cons, List.flatMap_append,
      List.flatMap_cons, List.append_assoc, Nat.zero_add]
  · simp only [TierPlan.edges, List.zipIdx_append, List.zipIdx_cons, List.flatMap_append,
      List.flatMap_cons, List.append_assoc, Nat.zero_add, Member.withFallback, edgesFrom_append,
      List.nil_append]
  · obtain ⟨sub, _, _, -, _, -, rfl⟩ := mem_edgesFrom.1 he
    exact ⟨rfl, List.subset_append_left ..⟩

theorem activeEdges_eq (hx : tier.Extends wider m) (h : m.Waits l) :
    Round.activeEdges wider.edges l = Round.activeEdges tier.edges l := by
  obtain ⟨first, more, last, hedges, hwider, hmore⟩ := hx.edges
  have hnone : more.filter (·.isActive l) = [] := by
    refine List.filter_eq_nil_iff.2 fun e he hact => ?_
    obtain ⟨hd, hahead⟩ := hmore e he
    obtain ⟨hlive, hdry⟩ := Edge.isActive_iff.1 hact
    obtain ⟨s, hs, hsupply⟩ := h (hd ▸ hlive .demand)
    exact hdry s (hahead hs) hsupply
  rw [Round.activeEdges, Round.activeEdges, hedges, hwider, List.filter_append, List.filter_append,
    List.filter_append, hnone, List.nil_append]

theorem holders_eq (hx : tier.Extends wider m) (l : Ledger) : wider.holders l = tier.holders l := by
  obtain ⟨before, after, added, rfl, rfl⟩ := hx
  simp only [holders, List.zipIdx_append, List.zipIdx_cons, List.map_append, List.map_cons,
    Member.withFallback]

theorem fits (hx : tier.Extends wider m) (ht : wider.Fits l) : tier.Fits l := by
  obtain ⟨before, after, added, rfl, rfl⟩ := hx
  have hmem : ∀ n ∈ before ++ m :: after, ∃ n' ∈ before ++ m.withFallback added :: after,
      n'.demand = n.demand ∧ n.targets ⊆ n'.targets := by
    intro n hn
    rcases List.mem_append.1 hn with hn | hn
    · exact ⟨n, List.mem_append_left _ hn, rfl, List.Subset.refl _⟩
    · rcases List.mem_cons.1 hn with rfl | hn
      · exact ⟨_, List.mem_append_right _ List.mem_cons_self, rfl, List.subset_append_left ..⟩
      · exact ⟨n, List.mem_append_right _ (List.mem_cons_of_mem _ hn), rfl, List.Subset.refl _⟩
  refine ⟨fun n hn => ?_, fun n hn peers hp => ?_, ?_, fun n hn peers hp => ?_⟩
  · obtain ⟨n', hn', hd, -⟩ := hmem n hn
    exact hd ▸ ht.demand_lt n' hn'
  · obtain ⟨n', hn', -, hsub⟩ := hmem n hn
    exact ht.supply_lt n' hn' peers (hsub hp)
  · have := ht.nodup_demand
    rwa [List.map_append, List.map_cons] at this ⊢
  · obtain ⟨n', hn', -, hsub⟩ := hmem n hn
    exact ht.nodup_peers n' hn' peers (hsub hp)

end TierPlan.Extends

namespace Filling
variable {tier wider : TierPlan} {m : Member} {l : Ledger} {f g : Filling} {r : Round}

/-! ### The same rounds -/

theorem granted_congr {edges edges' : List Edge}
    (h : Round.activeEdges edges' l = Round.activeEdges edges l) (r : Round) (p : Edge → Bool) :
    r.granted edges' l p = r.granted edges l p := by
  cases r with
  | uniform n increment => rw [Round.granted_uniform, Round.granted_uniform, h]
  | settle x held n => rw [Round.granted_settle, Round.granted_settle, h]

/-- The same has been done along the edges of both tiers, and nothing along other ones. -/
structure Alike (tier wider : TierPlan) (f g : Filling) : Prop where
  ledger : g.ledger = f.ledger
  along : ∀ p, g.along wider.edges p = f.along tier.edges p

namespace Alike

theorem start (tier wider : TierPlan) (l : Ledger) :
    Alike tier wider (.start tier.edges l) (.start wider.edges l) :=
  ⟨rfl, fun p => by rw [along_start, along_start]⟩

theorem next?_eq (h : Alike tier wider f g) (hx : tier.Extends wider m) (hw : m.Waits f.ledger) :
    Round.next? wider.edges (wider.holders l) g.ledger =
      Round.next? tier.edges (tier.holders l) f.ledger := by
  rw [hx.holders_eq, h.ledger, Round.next?, Round.next?, hx.activeEdges_eq hw]

/-- A round does the same to both as long as the same edges are active. -/
theorem apply (h : Alike tier wider f g) (hx : tier.Extends wider m) (ht : wider.Fits l)
    (hb : f.Balanced tier.edges l) (hb' : g.Balanced wider.edges l) (hw : m.Waits f.ledger)
    (hr : Round.next? tier.edges (tier.holders l) f.ledger = some r) :
    Alike tier wider (f.apply tier.edges r) (g.apply wider.edges r) := by
  have hgranted := granted_congr (hx.activeEdges_eq hw) r
  refine ⟨Ledger.ext_remaining (fun side => ?_) fun side i => ?_, fun p => ?_⟩
  · rw [ids_apply, ids_apply, h.ledger]
  · rw [remaining_apply, remaining_apply, h.ledger, hgranted]
  · rw [hb'.along_apply ht ((h.next?_eq hx hw).trans hr), hb.along_apply (hx.fits ht) hr, h.along,
      h.ledger, hgranted]

end Alike

/-! ### Once the member has used up what it named -/

theorem spent_of_not_waits (ht : tier.Fits l) (hm : m ∈ tier) (h : ¬ m.Waits f.ledger) :
    Spent tier.edges f.ledger (·.isAt .demand m.demand) := by
  intro e he hat
  obtain ⟨sub, peers, rest, htargets, hs, -⟩ := ht.targets_of_mem_edges hm he (Edge.isAt_iff.1 hat)
  refine ⟨.supply, fun hlive => h fun _ => ⟨e.supply, ?_, hlive⟩⟩
  rw [htargets]
  exact List.mem_flatten.2 ⟨peers, by simp, hs⟩

/-- The second filling grants a member the same from each supply that it names, and no less in all. -/
structure NoWorse (tier wider : TierPlan) (m : Member) (f g : Filling) : Prop where
  same : ∀ s ∈ m.targets.flatten, g.between wider ⟨m.demand, s⟩ = f.between tier ⟨m.demand, s⟩
  total_le : f.along tier.edges (·.isAt .demand m.demand) ≤
    g.along wider.edges (·.isAt .demand m.demand)

theorem Alike.noWorse (h : Alike tier wider f g) (m : Member) : NoWorse tier wider m f g :=
  ⟨fun _ _ => h.along _, Nat.le_of_eq (h.along _).symm⟩

theorem Alike.run_of_not_waits (h : Alike tier wider f g) (hx : tier.Extends wider m)
    (ht : wider.Fits l) (hb : f.Balanced tier.edges l) (hb' : g.Balanced wider.edges l)
    (hw : ¬ m.Waits f.ledger) : NoWorse tier wider m (f.run tier.edges (tier.holders l)).2
      (g.run wider.edges (wider.holders l)).2 := by
  have hfits := hx.fits ht
  refine ⟨fun s hs => ?_, ?_⟩
  · have hdry : ¬ f.ledger.isLive .supply s := fun hlive => hw fun _ => ⟨s, hs, hlive⟩
    have hspent := spent_of_not_isLive (p := (·.joins ⟨m.demand, s⟩)) hdry fun e he =>
      congrArg BySide.supply (Edge.joins_iff.1 he)
    rw [between, between, along_run_of_spent hfits hb (hspent _),
      along_run_of_spent ht hb' (h.ledger ▸ hspent _), h.along]
  · rw [along_run_of_spent hfits hb (spent_of_not_waits hfits hx.mem hw), ← h.along]
    exact along_le_run ht hb' _

theorem Alike.run (h : Alike tier wider f g) (hx : tier.Extends wider m) (ht : wider.Fits l)
    (hb : f.Balanced tier.edges l) (hb' : g.Balanced wider.edges l) :
    NoWorse tier wider m (f.run tier.edges (tier.holders l)).2
      (g.run wider.edges (wider.holders l)).2 := by
  fun_induction Filling.run tier.edges (tier.holders l) f generalizing g with
  | case1 f hnone =>
    by_cases hw : m.Waits f.ledger
    · have hnone := (h.next?_eq hx hw).trans (step_eq_none_iff.1 hnone)
      rw [run_eq_of_none hnone]
      exact h.noWorse m
    · have := h.run_of_not_waits hx ht hb hb' hw
      rwa [run_eq_of_none (step_eq_none_iff.1 hnone)] at this
  | case2 f r next hstep rounds last hrun ih =>
    obtain ⟨hr, rfl⟩ := step_eq_some_iff.1 hstep
    rw [hrun] at ih
    by_cases hw : m.Waits f.ledger
    · have hr' := (h.next?_eq hx hw).trans hr
      rw [run_eq_of_some hr']
      exact ih (h.apply hx ht hb hb' hw hr) (hb.apply (hx.fits ht) hr) (hb'.apply ht hr')
    · have := h.run_of_not_waits hx ht hb hb' hw
      rwa [run_eq_of_some hr, hrun] at this

end Filling

namespace TierPlan
variable {tier wider : TierPlan} {m : Member} {l : Ledger}

/-- With further sub-tiers behind those it has, a member gets the same from each supply that it named
before, and no less in all. -/
theorem resolve_fallback (ht : wider.Fits l) (hx : tier.Extends wider m) :
    (∀ s ∈ m.targets.flatten,
      (wider.resolve l).flow ⟨m.demand, s⟩ = (tier.resolve l).flow ⟨m.demand, s⟩) ∧
    exchanged (tier.resolve l).pairs .demand (l.id .demand m.demand) ≤
      exchanged (wider.resolve l).pairs .demand (l.id .demand m.demand) := by
  have hfits := hx.fits ht
  have hd := hfits.demand_lt m hx.mem
  obtain ⟨hsame, hle⟩ := (Filling.Alike.start tier wider l).run hx ht
    (Filling.balanced_start tier.edges l) (Filling.balanced_start wider.edges l)
  refine ⟨fun s hs => ?_, ?_⟩
  · obtain ⟨peers, hp, hmem⟩ := List.mem_flatten.1 hs
    have hslot := hfits.supply_lt m hx.mem peers hp s hmem
    rw [flow_resolve ht hd hslot, flow_resolve hfits hd hslot]
    exact hsame s hs
  · rw [pairs_resolve, pairs_resolve, exchanged_pairs hfits hd, exchanged_pairs ht hd]
    exact hle

/-- A second sub-tier for the first member, which the first one does not serve. It gives two units
more, and none of the first sub-tier's are missing. -/
theorem resolve_fallback_sample :
    let tier : TierPlan := [⟨0, [[0]]⟩, ⟨1, [[0, 1]]⟩]
    let l := sampleLedger
    (sampleTier.Fits l ∧ tier.Extends sampleTier ⟨0, [[0]]⟩) ∧
    (tier.resolve l).pairs = [⟨"a", "x", .clamp 4⟩, ⟨"b", "x", .clamp 3⟩, ⟨"b", "y", .clamp 2⟩] ∧
    (sampleTier.resolve l).pairs = [⟨"a", "x", .clamp 4⟩, ⟨"a", "y", .clamp 2⟩,
      ⟨"b", "x", .clamp 3⟩, ⟨"b", "y", .clamp 2⟩] ∧
    (sampleTier.resolve l).flow ⟨0, 0⟩ = (tier.resolve l).flow ⟨0, 0⟩ ∧
    exchanged (tier.resolve l).pairs .demand "a" ≤
      exchanged (sampleTier.resolve l).pairs .demand "a" := by
  intro tier l
  have hx : tier.Extends sampleTier ⟨0, [[0]]⟩ := ⟨[], [⟨1, [[0, 1]]⟩], [[1]], rfl, rfl⟩
  obtain ⟨hsame, hle⟩ := resolve_fallback fits_sample hx
  exact ⟨⟨fits_sample, hx⟩, by decide +kernel, pairs_resolve_sample, hsame 0 (by decide), hle⟩

end TierPlan
end FairShare
