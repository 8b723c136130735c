import FairShare.Proofs.Tier.Fairness
import FairShare.Proofs.Tier.Seniority
import FairShare.Proofs.Tier.Termination

/-!
# A member that asks for more

Raising what one member asks for changes nothing until that member has to settle. Filled by units, the
two ledgers have the same active edges, and the same holder is the first who is short, unless it is the
member itself (`Filling.Raised.recipients_eq`). Who settles gives a unit to each of fewer edges than it
has, all in one sub-tier. With the higher demand the member does not settle there, and others may be
served first: it can end up with less (`TierPlan.not_exchanged_raised`), but loses at most one unit from
each supply, and not as many as one of its sub-tiers has live supplies (`TierPlan.resolve_raised`).
-/

namespace FairShare

/-- The second ledger has more at one slot on the demand side, and the same everywhere else. -/
structure Ledger.Raised (l l' : Ledger) (d : Nat) : Prop where
  ids : ∀ side, l'.ids side = l.ids side
  same : ∀ side i, (side = .demand → i ≠ d) → l'.remaining side i = l.remaining side i
  le : l.remaining .demand d ≤ l'.remaining .demand d

namespace Ledger.Raised
variable {l l' : Ledger} {d : Nat}

theorem isLive_eq (h : l.Raised l' d) (hd : l.isLive .demand d) (side : Side) (i : Nat) :
    l'.isLive side i = l.isLive side i := by
  by_cases hi : side = .demand → i ≠ d
  · rw [isLive, isLive, h.same side i hi]
  · rw [Classical.not_imp, Classical.not_not] at hi
    obtain ⟨rfl, rfl⟩ := hi
    rw [hd]
    exact isLive_iff.2 (Nat.lt_of_lt_of_le (isLive_iff.1 hd) h.le)

theorem activeEdges_eq (h : l.Raised l' d) (hd : l.isLive .demand d) (edges : List Edge) :
    Round.activeEdges edges l' = Round.activeEdges edges l :=
  List.filter_congr fun e _ => Edge.isActive_congr (h.isLive_eq hd) e

theorem remaining_eq (h : l.Raised l' d) {x : Holder} (hx : x.side = .demand → x.slot ≠ d) :
    x.remaining l' = x.remaining l := by
  rw [Holder.remaining_eq, Holder.remaining_eq, h.same x.side x.slot hx]

theorem remaining_le (h : l.Raised l' d) (x : Holder) :
    (x.remaining l).units ≤ (x.remaining l').units := by
  by_cases hx : x.side = .demand → x.slot ≠ d
  · exact Nat.le_of_eq (congrArg Volume.units (h.remaining_eq hx).symm)
  · rw [Classical.not_imp, Classical.not_not] at hx
    rw [Holder.remaining_eq, Holder.remaining_eq, hx.1, hx.2]
    exact h.le

theorem holders_eq (h : l.Raised l' d) (tier : TierPlan) : tier.holders l' = tier.holders l := by
  rw [TierPlan.holders, TierPlan.holders, Ledger.size_congr (h.ids .supply)]

end Ledger.Raised

namespace Round
variable {tier : TierPlan} {l : Ledger} {x : Holder}

/-- The first who has fewer units than active edges. -/
def short? (edges : List Edge) (holders : List Holder) (l : Ledger) : Option Holder :=
  holders.find? fun x => (x.remaining l).units < x.degree (activeEdges edges l)

theorem next?_of_short? (ht : tier.Fits l)
    (hx : short? tier.edges (tier.holders l) l = some x) :
    next? tier.edges (tier.holders l) l =
      some (.settle x (x.remaining l) (x.degree (activeEdges tier.edges l))) := by
  have hshort : (x.remaining l).units < x.degree (activeEdges tier.edges l) := by
    simpa using List.find?_some hx
  cases hr : next? tier.edges (tier.holders l) l with
  | none =>
    rw [(next?_eq_none_iff ht).1 hr] at hshort
    exact absurd hshort (Nat.not_lt_zero _)
  | some r =>
    rcases next?_cases hr with ⟨increment, rfl, hpos, -⟩ | ⟨y, rfl, hs⟩
    · have := increment_mul_le hr (List.mem_of_find?_eq_some hx) (Nat.zero_lt_of_lt hshort)
      have := Nat.le_mul_of_pos_left (x.degree (activeEdges tier.edges l)) hpos
      omega
    · have hy := find?_of_firstShort? hs
      rw [← short?, hx] at hy
      cases hy
      rfl

end Round

namespace Filling
variable {tier : TierPlan} {l l' : Ledger} {f g : Filling} {d : Nat} {x : Holder}

/-! ### Units -/

theorem recipients_of_short? {edges : List Edge} {holders : List Holder}
    (hx : Round.short? edges holders l = some x) : recipients edges holders l =
      ((Round.activeEdges edges l).filter x.owns).take (x.remaining l).units := by
  rw [Round.short?] at hx
  rw [recipients, hx]

theorem recipients_of_none {edges : List Edge} {holders : List Holder}
    (hx : Round.short? edges holders l = none) :
    recipients edges holders l = Round.activeEdges edges l := by
  rw [Round.short?] at hx
  rw [recipients, hx]

/-- A step by units overdraws nobody. -/
theorem Balanced.serve (hb : f.Balanced tier.edges l) (ht : tier.Fits l) :
    (f.serve tier.edges (recipients tier.edges (tier.holders l) f.ledger)).Balanced tier.edges l := by
  have hfits := hb.fits ht
  cases hx : Round.short? tier.edges (tier.holders l) f.ledger with
  | some x =>
    rw [hb.holders_eq tier] at hx
    have hr := Round.next?_of_short? hfits hx
    rw [← hb.holders_eq tier] at hr
    rw [serve_settle ht hr]
    exact hb.apply ht hr
  | none =>
    rw [recipients_of_none hx, serve_eq_apply (r := .uniform 0 .one) ?_]
    · refine hb.apply_of_le fun side i => ?_
      rw [Round.granted_uniform, Volume.one, Nat.one_mul]
      rcases Nat.eq_zero_or_pos
        ((Round.activeEdges tier.edges f.ledger).countP (·.isAt side i)) with h0 | hpos
      · rw [h0]; exact Nat.zero_le _
      obtain ⟨e, he, hat⟩ := List.countP_pos_iff.1 hpos
      obtain ⟨y, hy, ho, rfl⟩ := ht.exists_holder (Round.mem_activeEdges.1 he).1 side
      have hle := List.find?_eq_none.1 hx y hy
      rw [decide_eq_true_eq, Nat.not_lt, Holder.remaining_eq,
        ht.degree_eq hy] at hle
      rwa [← Edge.isAt_iff.1 hat, Holder.ends_of_owns ho]
    · rw [Round.grants]
      refine List.map_congr_left fun e he => ?_
      simp only [Round.mem_activeEdges, he, true_and]

/-! ### As long as the member does not settle -/

/-- The same has flowed, but one demand slot may have more left in the second filling. -/
structure Raised (d : Nat) (f g : Filling) : Prop where
  ledger : f.ledger.Raised g.ledger d
  flows : g.flows = f.flows

namespace Raised

theorem short?_eq (h : Raised d f g) (hd : f.ledger.isLive .demand d) {edges : List Edge}
    {holders : List Holder} (hx : ∀ x, Round.short? edges holders f.ledger = some x →
      x.side = .demand → x.slot ≠ d) :
    Round.short? edges holders g.ledger = Round.short? edges holders f.ledger := by
  have hless : ∀ y : Holder,
      (y.remaining g.ledger).units < y.degree (Round.activeEdges edges g.ledger) →
      (y.remaining f.ledger).units < y.degree (Round.activeEdges edges f.ledger) := by
    intro y hy
    rw [h.ledger.activeEdges_eq hd] at hy
    exact Nat.lt_of_le_of_lt (h.ledger.remaining_le y) hy
  cases hfind : Round.short? edges holders f.ledger with
  | none =>
    rw [Round.short?, List.find?_eq_none] at hfind ⊢
    intro y hy hs
    exact hfind y hy (decide_eq_true (hless y (of_decide_eq_true hs)))
  | some x =>
    have hxd := hx x hfind
    rw [Round.short?, List.find?_eq_some_iff_append] at hfind ⊢
    obtain ⟨hshort, before, after, rfl, hbefore⟩ := hfind
    refine ⟨?_, before, after, rfl, fun y hy => ?_⟩
    · rwa [h.ledger.activeEdges_eq hd, h.ledger.remaining_eq hxd]
    · have hnot := hbefore y hy
      simp only [Bool.not_eq_true', decide_eq_false_iff_not] at hnot ⊢
      exact fun hs => hnot (hless y hs)

theorem recipients_eq (h : Raised d f g) (hd : f.ledger.isLive .demand d) {edges : List Edge}
    {holders : List Holder} (hx : ∀ x, Round.short? edges holders f.ledger = some x →
      x.side = .demand → x.slot ≠ d) :
    recipients edges holders g.ledger = recipients edges holders f.ledger := by
  have hshort := h.short?_eq hd hx
  cases hfind : Round.short? edges holders f.ledger with
  | none =>
    rw [recipients_of_none hfind, recipients_of_none (hshort.trans hfind),
      h.ledger.activeEdges_eq hd]
  | some x =>
    rw [recipients_of_short? hfind, recipients_of_short? (hshort.trans hfind),
      h.ledger.activeEdges_eq hd, h.ledger.remaining_eq (hx x hfind)]

/-- The same units go to both. -/
theorem serve (h : Raised d f g) (edges served : List Edge) :
    Raised d (f.serve edges served) (g.serve edges served) := by
  have hids : ∀ (k : Filling) side, (k.serve edges served).ledger.ids side = k.ledger.ids side :=
    fun k side => Ledger.ids_transferAll ..
  have hleft : ∀ (k : Filling) side i, ((k.serve edges served).ledger.remaining side i).units =
      (k.ledger.remaining side i).units - unitsAlong (·.isAt side i)
        (edges.zip (edges.map fun e => if e ∈ served then Volume.one else .zero)) :=
    fun k side i => Ledger.units_remaining_transferAll ..
  refine ⟨⟨fun side => ?_, fun side i hi => Volume.ext ?_, ?_⟩, ?_⟩
  · rw [hids, hids, h.ledger.ids]
  · rw [hleft, hleft, h.ledger.same side i hi]
  · rw [Volume.le_def, hleft, hleft]
    exact Nat.sub_le_sub_right h.ledger.le _
  · show List.zipWith _ g.flows _ = List.zipWith _ f.flows _
    rw [h.flows]

end Raised

/-! ### When the member settles -/

/-- How the fillings of a tier compare for a member: the flows are the same if it has something left in
the first one, and otherwise it loses little. -/
structure LosesLittle (tier : TierPlan) (l : Ledger) (d : Nat) (f g : Filling) : Prop where
  flows : f.ledger.isLive .demand d → g.flows = f.flows
  between_le : ∀ s, f.between tier ⟨d, s⟩ ≤ g.between tier ⟨d, s⟩ + 1
  total_lt : f.along tier.edges (·.isAt .demand d) ≤ g.along tier.edges (·.isAt .demand d) ∨
    ∃ mid : Ledger, l.DrainsTo mid ∧ f.along tier.edges (·.isAt .demand d) <
      g.along tier.edges (·.isAt .demand d) +
        (Round.activeEdges tier.edges mid).countP (·.isAt .demand d)

theorem along_congr (h : g.flows = f.flows) (edges : List Edge) (p : Edge → Bool) :
    g.along edges p = f.along edges p := by
  rw [along, along, h]

namespace Raised

theorem losesLittle (h : Raised d f g) (tier : TierPlan) (l : Ledger) :
    LosesLittle tier l d f g := by
  have halong := along_congr h.flows tier.edges
  exact ⟨fun _ => h.flows, fun s => by rw [between, between, halong]; exact Nat.le_succ _,
    .inl (Nat.le_of_eq (halong _).symm)⟩

/-- Who is exhausted has got what it gets. -/
theorem run_of_not_isLive (h : Raised d f g) (ht : tier.Fits l) (ht' : tier.Fits l')
    (hb : f.Balanced tier.edges l) (hb' : g.Balanced tier.edges l')
    (hd : ¬ f.ledger.isLive .demand d) : LosesLittle tier l d (f.run tier.edges (tier.holders l)).2
      (g.run tier.edges (tier.holders l')).2 := by
  have hkeeps : ∀ p : Edge → Bool, (∀ e, p e → e.ends.get .demand = d) →
      (f.run tier.edges (tier.holders l)).2.along tier.edges p ≤
        (g.run tier.edges (tier.holders l')).2.along tier.edges p := fun p hp => by
    rw [along_run_of_spent ht hb (spent_of_not_isLive hd hp _), ← along_congr h.flows]
    exact along_le_run ht' hb' p
  refine ⟨fun hlive => absurd hlive (drainsTo_run _ _ f _ _ hd), fun s => ?_, .inl ?_⟩
  · exact Nat.le_succ_of_le (hkeeps _ fun e he => congrArg BySide.demand (Edge.joins_iff.1 he))
  · exact hkeeps _ fun e he => Edge.isAt_iff.1 he

/-- Who settles gets a unit from each of fewer peers than it has, and is exhausted. -/
theorem run_of_settle (h : Raised d f g) (ht : tier.Fits l) (ht' : tier.Fits l')
    (hb : f.Balanced tier.edges l) (hb' : g.Balanced tier.edges l')
    (hx : Round.short? tier.edges (tier.holders l) f.ledger = some x) (hside : x.side = .demand)
    (hslot : x.slot = d) : LosesLittle tier l d (f.run tier.edges (tier.holders l)).2
      (g.run tier.edges (tier.holders l')).2 := by
  have hfits := hb.fits ht
  have hshort := List.find?_some hx
  rw [decide_eq_true_eq, ht.degree_eq (List.mem_of_find?_eq_some hx)] at hshort
  rw [hb.holders_eq tier] at hx
  have hr := Round.next?_of_short? hfits hx
  have hexhausts := Round.settle_exhausts hr
  have hgranted := Round.granted_joins_le hfits hr
  have hdead := (exhausted_of_settle hr).2
  rw [← hb.holders_eq tier] at hr
  rw [Holder.remaining_eq, hside, hslot] at hshort
  rw [hside, hslot] at hexhausts hdead
  have hlast : ∀ p : Edge → Bool, (∀ e, p e → e.ends.get .demand = d) →
      (f.run tier.edges (tier.holders l)).2.along tier.edges p = g.along tier.edges p +
        (Round.settle x (x.remaining f.ledger)
          (x.degree (Round.activeEdges tier.edges f.ledger))).granted tier.edges f.ledger p :=
    fun p hp => by
      rw [run_eq_of_some hr, along_run_of_spent ht (hb.apply ht hr) (spent_of_not_isLive hdead hp _),
        hb.along_apply ht hr, along_congr h.flows]
  refine ⟨fun hlive => ?_, fun s => ?_, .inr ⟨f.ledger, hb.drainsTo, ?_⟩⟩
  · rw [run_eq_of_some hr] at hlive
    exact absurd hlive (drainsTo_run _ _ _ _ _ hdead)
  · have hmore := along_le_run ht' hb' (·.joins ⟨d, s⟩)
    have hlevel := hgranted ⟨d, s⟩
    rw [between, hlast (·.joins ⟨d, s⟩) fun e he => congrArg BySide.demand (Edge.joins_iff.1 he)]
    exact Nat.add_le_add hmore hlevel
  · have hmore := along_le_run ht' hb' (·.isAt .demand d)
    rw [hlast (·.isAt .demand d) fun e he => Edge.isAt_iff.1 he, hexhausts]
    exact Nat.add_lt_add_of_le_of_lt hmore hshort

/-- The two go on alike until the member settles in the first one, or is exhausted. -/
theorem run (h : Raised d f g) (hl : l.Raised l' d) (ht : tier.Fits l)
    (hb : f.Balanced tier.edges l) (hb' : g.Balanced tier.edges l') :
    LosesLittle tier l d (f.run tier.edges (tier.holders l)).2
      (g.run tier.edges (tier.holders l')).2 := by
  have ht' := ht.congr hl.ids
  rw [← serveAll_eq_run ht hb, ← serveAll_eq_run ht' hb']
  fun_induction Filling.serveAll tier.edges (tier.holders l) f generalizing g with
  | case1 f hnil =>
    by_cases hd : f.ledger.isLive .demand d
    · rw [serveAll_of_nil ((h.ledger.activeEdges_eq hd _).trans hnil)]
      exact h.losesLittle tier l
    · have := h.run_of_not_isLive ht ht' hb hb' hd
      rwa [← serveAll_eq_run ht hb, ← serveAll_eq_run ht' hb', serveAll_of_nil hnil] at this
  | case2 f hne ih =>
    by_cases hd : f.ledger.isLive .demand d
    · by_cases hx : ∃ x, Round.short? tier.edges (tier.holders l) f.ledger = some x ∧
        x.side = .demand ∧ x.slot = d
      · obtain ⟨x, hx, hside, hslot⟩ := hx
        have := h.run_of_settle ht ht' hb hb' hx hside hslot
        rwa [← serveAll_eq_run ht hb, ← serveAll_eq_run ht' hb', serveAll_of_ne_nil hne] at this
      · have hserved : recipients tier.edges (tier.holders l') g.ledger =
            recipients tier.edges (tier.holders l) f.ledger := by
          rw [hl.holders_eq]
          exact h.recipients_eq hd fun x hfind hside hslot => hx ⟨x, hfind, hside, hslot⟩
        have hstep := hb'.serve ht'
        rw [hserved] at hstep
        rw [serveAll_of_ne_nil (f := g) (by rwa [h.ledger.activeEdges_eq hd]), hserved]
        exact ih (h.serve _ _) (hb.serve ht) hstep
    · have := h.run_of_not_isLive ht ht' hb hb' hd
      rwa [← serveAll_eq_run ht hb, ← serveAll_eq_run ht' hb', serveAll_of_ne_nil hne] at this

end Raised
end Filling

namespace TierPlan
variable {tier : TierPlan} {l l' mid : Ledger} {m : Member}

/-- An active edge leads to the first sub-tier in which anything is left. -/
theorem Fits.supply_mem_preferred (ht : tier.Fits l) (hm : m ∈ tier) {e : Edge}
    (he : e ∈ Round.activeEdges tier.edges mid) (hd : e.demand = m.demand) :
    m.preferred mid ∈ m.targets ∧ e.supply ∈ m.preferred mid := by
  obtain ⟨hmem, hact⟩ := Round.mem_activeEdges.1 he
  obtain ⟨before, peers, after, htargets, hs, hahead⟩ := ht.targets_of_mem_edges hm hmem hd
  obtain ⟨hlive, hdry⟩ := Edge.isActive_iff.1 hact
  have hfind : m.targets.find? (fun peers => peers.any (mid.isLive .supply)) = some peers := by
    refine List.find?_eq_some_iff_append.2 ⟨?_, before, after, htargets, fun first hfirst => ?_⟩
    · exact List.any_eq_true.2 ⟨e.supply, hs, hlive .supply⟩
    · rw [Bool.not_eq_true', List.any_eq_false]
      exact fun s hs => hdry s (hahead ▸ List.mem_flatten.2 ⟨first, hfirst, hs⟩)
  rw [Member.preferred, hfind, Option.getD_some, htargets]
  exact ⟨List.mem_append_right _ (List.mem_cons_self ..), hs⟩

/-- A member has at most as many active edges as there is live supply in one of its sub-tiers. -/
theorem Fits.countP_isActive_le (ht : tier.Fits l) (hm : m ∈ tier)
    (hpos : 0 < (Round.activeEdges tier.edges mid).countP (·.isAt .demand m.demand)) :
    ∃ peers ∈ m.targets, (Round.activeEdges tier.edges mid).countP (·.isAt .demand m.demand) ≤
      peers.countP (mid.isLive .supply) := by
  have hwanted : ∀ e ∈ Round.activeEdges tier.edges mid, e.isAt .demand m.demand →
      m.preferred mid ∈ m.targets ∧ e.supply ∈ m.preferred mid := fun e he hat =>
    ht.supply_mem_preferred hm he (Edge.isAt_iff.1 hat)
  obtain ⟨e, he, hat⟩ := List.countP_pos_iff.1 hpos
  refine ⟨m.preferred mid, (hwanted e he hat).1, ?_⟩
  have hsubset : (((Round.activeEdges tier.edges mid).filter (·.isAt .demand m.demand)).map
      (·.across .demand)) ⊆ (m.preferred mid).filter (mid.isLive .supply) := by
    intro s hs
    obtain ⟨e, he, rfl⟩ := List.mem_map.1 hs
    obtain ⟨he, hat⟩ := List.mem_filter.1 he
    exact List.mem_filter.2 ⟨(hwanted e he hat).2,
      (Edge.isActive_iff.1 (Round.mem_activeEdges.1 he).2).1 .supply⟩
  have hle := ((ht.nodup_across mid .demand m.demand).subperm hsubset).length_le
  rwa [List.length_map, ← List.countP_eq_length_filter, ← List.countP_eq_length_filter] at hle

/-- If a member asks for more, nothing changes unless it got all it asked for before. It loses at most a
unit from each supply, and fewer units in all than one of its sub-tiers has live supplies. -/
theorem resolve_raised (ht : tier.Fits l) (hm : m ∈ tier) (h : l.Raised l' m.demand) :
    ((tier.resolve l).ledger.isLive .demand m.demand →
      (tier.resolve l').pairs = (tier.resolve l).pairs) ∧
    (∀ s ∈ m.targets.flatten,
      (tier.resolve l).flow ⟨m.demand, s⟩ ≤ (tier.resolve l').flow ⟨m.demand, s⟩ + 1) ∧
    (exchanged (tier.resolve l).pairs .demand (l.id .demand m.demand) ≤
        exchanged (tier.resolve l').pairs .demand (l.id .demand m.demand) ∨
      ∃ peers ∈ m.targets, exchanged (tier.resolve l).pairs .demand (l.id .demand m.demand) <
        exchanged (tier.resolve l').pairs .demand (l.id .demand m.demand) +
          peers.countP (l.isLive .supply)) := by
  have ht' := ht.congr h.ids
  have hd := ht.demand_lt m hm
  have hd' := ht'.demand_lt m hm
  have hstart : Filling.Raised m.demand (.start tier.edges l) (.start tier.edges l') := ⟨h, rfl⟩
  obtain ⟨hflows, hbetween, htotal⟩ := hstart.run h ht (Filling.balanced_start tier.edges l)
    (Filling.balanced_start tier.edges l')
  refine ⟨fun hlive => ?_, fun s hs => ?_, ?_⟩
  · have hsame : (tier.fill l').2.flows = (tier.fill l).2.flows := hflows hlive
    rw [pairs_resolve, pairs_resolve, hsame, pairs_congr h.ids]
  · obtain ⟨peers, hp, hmem⟩ := List.mem_flatten.1 hs
    rw [flow_resolve ht hd (ht.supply_lt m hm peers hp s hmem),
      flow_resolve ht' hd' (ht'.supply_lt m hm peers hp s hmem)]
    exact hbetween s
  · have htook : exchanged (tier.resolve l').pairs .demand (l.id .demand m.demand) =
        (tier.fill l').2.along tier.edges (·.isAt .demand m.demand) := by
      rw [← Ledger.id_congr (h.ids .demand), pairs_resolve, exchanged_pairs ht' hd', Filling.along]
    rw [htook, pairs_resolve, exchanged_pairs ht hd]
    rcases htotal with hle | ⟨mid, hdrains, hlt⟩
    · exact .inl hle
    rcases Nat.eq_zero_or_pos
      ((Round.activeEdges tier.edges mid).countP (·.isAt .demand m.demand)) with h0 | hpos
    · rw [h0] at hlt
      exact .inl (Nat.le_of_lt hlt)
    · obtain ⟨peers, hp, hcount⟩ := ht.countP_isActive_le hm hpos
      have hdrained : peers.countP (mid.isLive .supply) ≤ peers.countP (l.isLive .supply) :=
        List.countP_mono_left fun s _ hs => hdrains.isLive hs
      exact .inr ⟨peers, hp, Nat.lt_of_lt_of_le hlt
        (Nat.add_le_add_left (Nat.le_trans hcount hdrained) _)⟩

/-- Two members who name the same two supplies, each in its own order. -/
def sampleRivals : TierPlan := [⟨1, [[1, 0]]⟩, ⟨0, [[0, 1]]⟩]

def sampleRivalsLedger (asked : Volume) : Ledger where
  slots := ⟨[⟨"a", asked⟩, ⟨"b", .clamp 2⟩], [⟨"x", .one⟩, ⟨"y", .one⟩]⟩
  nodup
    | .demand => show ["a", "b"].Nodup by decide
    | .supply => show ["x", "y"].Nodup by decide

theorem raised_sampleRivalsLedger {asked more : Volume} (h : asked ≤ more) :
    (sampleRivalsLedger asked).Raised (sampleRivalsLedger more) 0 := by
  refine ⟨fun side => by cases side <;> rfl, fun side i hi => ?_, h⟩
  cases side with
  | supply => rfl
  | demand =>
    cases i with
    | zero => exact absurd rfl (hi rfl)
    | succ i => rfl

theorem fits_sampleRivals : sampleRivals.Fits (sampleRivalsLedger .one) := by decide

/-- A member that gets one unit and, if it asks for two, none. -/
theorem resolve_raised_sample :
    let scarce := sampleRivalsLedger .one
    let ample := sampleRivalsLedger (.clamp 2)
    (sampleRivals.Fits scarce ∧ ⟨0, [[0, 1]]⟩ ∈ sampleRivals ∧ scarce.Raised ample 0) ∧
    (sampleRivals.resolve scarce).pairs = [⟨"b", "y", .one⟩, ⟨"a", "x", .one⟩] ∧
    (sampleRivals.resolve ample).pairs = [⟨"b", "y", .one⟩, ⟨"b", "x", .one⟩] ∧
    (∀ s ∈ [0, 1],
      (sampleRivals.resolve scarce).flow ⟨0, s⟩ ≤ (sampleRivals.resolve ample).flow ⟨0, s⟩ + 1) ∧
    exchanged (sampleRivals.resolve scarce).pairs .demand "a" <
      exchanged (sampleRivals.resolve ample).pairs .demand "a" + 2 := by
  intro scarce ample
  have hfits : sampleRivals.Fits scarce := fits_sampleRivals
  have hmem : ⟨0, [[0, 1]]⟩ ∈ sampleRivals := by decide
  have hraised : scarce.Raised ample 0 := raised_sampleRivalsLedger (by decide)
  refine ⟨⟨hfits, hmem, hraised⟩, by decide +kernel, by decide +kernel, ?_⟩
  obtain ⟨-, hflow, hle | ⟨peers, hp, hlt⟩⟩ := resolve_raised hfits hmem hraised
  · exact ⟨hflow, Nat.lt_add_right 1 (Nat.lt_succ_of_le hle)⟩
  · obtain rfl := List.mem_singleton.1 hp
    exact ⟨hflow, hlt⟩

/-- The member that asks for more can get less. With a demand of one it is the first who is short;
with a demand of two the supplies are, and each of them turns to the other member first. -/
theorem not_exchanged_raised : ¬ ∀ (tier : TierPlan) (l l' : Ledger) (m : Member), tier.Fits l →
    m ∈ tier → l.Raised l' m.demand →
    exchanged (tier.resolve l).pairs .demand (l.id .demand m.demand) ≤
      exchanged (tier.resolve l').pairs .demand (l.id .demand m.demand) := by
  intro h
  have hle := h sampleRivals (sampleRivalsLedger .one) (sampleRivalsLedger (.clamp 2)) ⟨0, [[0, 1]]⟩
    (fits_sampleRivals) (by decide) (raised_sampleRivalsLedger (by decide))
  revert hle
  decide +kernel

end TierPlan
end FairShare
