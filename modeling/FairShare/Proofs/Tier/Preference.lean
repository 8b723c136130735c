import FairShare.Proofs.Tier.Exchange

/-!
# What volume flows along

Volume flows only along active edges, and what is exhausted stays so. `Filling.Traced` says it of a
filling: every edge along which anything has flowed was active at some time since the start. So each
match of a tier comes from an edge whose ends were live, and ahead of which nothing is left
(`TierPlan.exists_of_mem_pairs`). An edge that lies behind its own supply is never active, so no two
matches of a tier are between the same entities (`TierPlan.pairwise_pairs`).
-/

namespace FairShare

/-- The ids of the two entities of a match. -/
def Match.ids (p : Match) : BySide String := ⟨p.demand, p.supply⟩

theorem Match.entity_eq (p : Match) (side : Side) : p.entity side = p.ids.get side := by
  cases side <;> rfl

/-- The ids of the entities at two slots. -/
def Ledger.names (l : Ledger) (ends : BySide Nat) : BySide String :=
  ⟨l.id .demand ends.demand, l.id .supply ends.supply⟩

theorem Ledger.get_names (l : Ledger) (ends : BySide Nat) (side : Side) :
    (l.names ends).get side = l.id side (ends.get side) := by cases side <;> rfl

theorem Ledger.names_congr {l l' : Ledger} (h : ∀ side, l'.ids side = l.ids side) :
    l'.names = l.names := by
  funext ends
  rw [names, names, id_congr (h .demand), id_congr (h .supply)]

theorem Match.entity_eq_id {p : Match} {l : Ledger} {ends : BySide Nat} (h : p.ids = l.names ends)
    (side : Side) : p.entity side = l.id side (ends.get side) := by
  rw [entity_eq, h, Ledger.get_names]

theorem Ledger.names_inj {l : Ledger} {ends ends' : BySide Nat}
    (h : ∀ side, ends.get side < l.size side) (h' : ∀ side, ends'.get side < l.size side)
    (heq : l.names ends = l.names ends') : ends = ends' := by
  have hside : ∀ side, ends.get side = ends'.get side := fun side => by
    rw [← id_inj (h side) (h' side), ← get_names, ← get_names, heq]
  exact BySide.ext (hside .demand) (hside .supply)

namespace Filling
variable {edges : List Edge} {l : Ledger} {f : Filling} {r : Round}

/-- Volume has flowed only along edges that were active at some time since `l`. -/
def Traced (edges : List Edge) (l : Ledger) (f : Filling) : Prop :=
  ∀ g ∈ edges.zip f.flows, 0 < g.2.units →
    ∃ mid : Ledger, l.DrainsTo mid ∧ g.1.isActive mid ∧ mid.DrainsTo f.ledger

theorem mem_zip_addSat {flows granted : List Volume} {g : Edge × Volume}
    (hg : g ∈ edges.zip (List.zipWith Volume.addSat flows granted)) (hpos : 0 < g.2.units) :
    ∃ v : Volume, 0 < v.units ∧ ((g.1, v) ∈ edges.zip flows ∨ (g.1, v) ∈ edges.zip granted) := by
  obtain ⟨i, hi, rfl⟩ := List.mem_iff_getElem.1 hg
  simp only [List.length_zip, List.length_zipWith] at hi
  have hf : i < flows.length := by omega
  have hg : i < granted.length := by omega
  simp only [List.getElem_zip, List.getElem_zipWith, Volume.units_addSat] at hpos ⊢
  rcases Nat.eq_zero_or_pos flows[i].units with h0 | hv
  · refine ⟨granted[i], by omega, .inr (List.mem_iff_getElem.2 ⟨i, ?_, ?_⟩)⟩
    · rw [List.length_zip]; omega
    · rw [List.getElem_zip]
  · refine ⟨flows[i], hv, .inl (List.mem_iff_getElem.2 ⟨i, ?_, ?_⟩)⟩
    · rw [List.length_zip]; omega
    · rw [List.getElem_zip]

theorem traced_start (edges : List Edge) (l : Ledger) : (start edges l).Traced edges l := by
  intro g hg hpos
  obtain ⟨_, -, h⟩ := List.mem_map.1 (List.of_mem_zip hg).2
  rw [← h] at hpos
  exact absurd hpos (Nat.lt_irrefl 0)

theorem Traced.apply (h : f.Traced edges l) (hb : f.Balanced edges l) (r : Round) :
    (f.apply edges r).Traced edges l := by
  intro g hg hpos
  obtain ⟨v, hv, hflow | hgrant⟩ := mem_zip_addSat hg hpos
  · obtain ⟨mid, hmid, hact, hlast⟩ := h _ hflow hv
    exact ⟨mid, hmid, hact, hlast.trans (drainsTo_apply edges f r)⟩
  · have hact : g.1.isActive f.ledger := Round.isActive_of_grants (g := (g.1, v)) hgrant hv
    exact ⟨f.ledger, hb.drainsTo, hact, drainsTo_apply edges f r⟩

end Filling

namespace TierPlan
variable {tier : TierPlan} {l : Ledger} {p : Match}

theorem traced_fill (ht : tier.Fits l) : (tier.fill l).2.Traced tier.edges l :=
  (fill_spec ht (P := (·.Traced tier.edges l)) (Filling.traced_start tier.edges l)
    fun _ r hb h _ => h.apply hb r).2

theorem ids_of_pair {g : Edge × Volume} (h : (if g.2.isZero then none else
    some ⟨l.id .demand g.1.demand, l.id .supply g.1.supply, g.2⟩) = some p) :
    0 < g.2.units ∧ p.ids = l.names g.1.ends ∧ p.volume = g.2 := by
  split at h
  · cases h
  · next hz =>
    cases h
    exact ⟨Volume.not_isZero_iff.1 (by simpa using hz), rfl, rfl⟩

/-- Every match is that of an edge which was active at some time. -/
theorem exists_of_mem_pairs (ht : tier.Fits l) (hp : p ∈ (tier.resolve l).pairs) :
    0 < p.volume.units ∧ ∃ e ∈ tier.edges, p.ids = l.names e.ends ∧ ∃ mid : Ledger,
      l.DrainsTo mid ∧ e.isActive mid ∧ mid.DrainsTo (tier.resolve l).ledger := by
  obtain ⟨g, hg, he⟩ := List.mem_filterMap.1 hp
  obtain ⟨hpos, hids, hv⟩ := ids_of_pair he
  exact ⟨hv ▸ hpos, g.1, (List.of_mem_zip hg).1, hids, traced_fill ht g hg hpos⟩

/-- Every match is between a member and one of its targets, and nothing is left of what the member
ranks above that. -/
theorem exists_member_of_mem_pairs (ht : tier.Fits l) (hp : p ∈ (tier.resolve l).pairs) :
    ∃ m ∈ tier, ∃ before peers after s, m.targets = before ++ peers :: after ∧ s ∈ peers ∧
      p.ids = l.names ⟨m.demand, s⟩ ∧
      ∀ i ∈ before.flatten, ¬ (tier.resolve l).ledger.isLive .supply i := by
  obtain ⟨-, e, he, hnames, mid, -, hact, hlast⟩ := exists_of_mem_pairs ht hp
  obtain ⟨m, i, hm, -, hd, before, peers, after, htargets, hs, hahead⟩ := exists_of_mem_edges he
  refine ⟨m, List.fst_mem_of_mem_zipIdx hm, before, peers, after, e.supply, htargets, hs, ?_, ?_⟩
  · rw [hnames, ← hd]; rfl
  · intro i hi
    rw [← hahead] at hi
    exact hlast .supply i ((Edge.isActive_iff.1 hact).2 i hi)

/-- An edge that lies behind its own supply is never active. -/
theorem not_isActive_of_mem_ahead {e : Edge} (h : e.supply ∈ e.ahead) : ¬ e.isActive l := by
  intro ha
  obtain ⟨hlive, hdry⟩ := Edge.isActive_iff.1 ha
  exact hdry _ h (hlive .supply)

/-- No two matches of a tier are between the same entities. -/
theorem pairwise_pairs (ht : tier.Fits l) :
    (tier.resolve l).pairs.Pairwise fun p q => p.ids ≠ q.ids := by
  rw [pairs_resolve, pairs, List.pairwise_filterMap]
  have hedges : (tier.edges.zip (tier.fill l).2.flows).Pairwise fun g g' =>
      g.1.ends = g'.1.ends → g.1.supply ∈ g'.1.ahead := by
    have hlen := (balanced_fill ht).length
    have := ht.pairwise_edges
    rw [← List.map_fst_zip (Nat.le_of_eq hlen.symm), List.pairwise_map] at this
    exact this
  refine hedges.imp_of_mem fun {g g'} hg hg' hahead p hp q hq heq => ?_
  obtain ⟨-, hids, -⟩ := ids_of_pair hp
  obtain ⟨hpos, hids', -⟩ := ids_of_pair hq
  have hends : g.1.ends = g'.1.ends :=
    Ledger.names_inj (ht.lt_size (List.of_mem_zip hg).1) (ht.lt_size (List.of_mem_zip hg').1)
      (hids.symm.trans (heq.trans hids'))
  -- the later edge lies behind its own supply, and yet something has flowed along it
  have hsupply : g.1.supply = g'.1.supply := congrArg BySide.supply hends
  have hbehind : g'.1.supply ∈ g'.1.ahead := hsupply ▸ hahead hends
  obtain ⟨_, -, hact, -⟩ := traced_fill ht g' hg' hpos
  exact not_isActive_of_mem_ahead hbehind hact

end TierPlan
end FairShare
