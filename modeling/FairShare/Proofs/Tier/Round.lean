import FairShare.Proofs.Tier.Shape

/-!
# What a round can do

`Round.next?_cases` says once what a round is: an increment that every active edge gets, the least
share that a holder of active edges can give, or the settling of a holder that has fewer units than
active edges. All else about rounds is derived from it for tiers that fit their ledger: there is a
round as long as an edge is active (`next?_eq_none_iff`), no slot is overdrawn (`granted_isAt_le`),
and what a round grants between two slots is its level, or one unit more where a holder is exhausted
by it.
-/

namespace FairShare
namespace Round

/-- The units that a round grants to the edges that `p` picks. -/
def granted (edges : List Edge) (l : Ledger) (r : Round) (p : Edge → Bool) : Nat :=
  unitsAlong p (edges.zip (r.grants edges l))

/-- What every active edge gets in a round at least. -/
def level : Round → Nat
  | uniform _ increment => increment.units
  | settle .. => 0

section
variable {edges : List Edge} {holders : List Holder} {l : Ledger} {r : Round}

theorem mem_activeEdges {e : Edge} : e ∈ activeEdges edges l ↔ e ∈ edges ∧ e.isActive l :=
  List.mem_filter

theorem filter_activeEdges (edges : List Edge) (l : Ledger) (p : Edge → Bool) :
    (activeEdges edges l).filter p = edges.filter fun e => e.isActive l && p e := by
  rw [activeEdges, List.filter_filter]
  exact List.filter_congr fun e _ => Bool.and_comm ..

/-- A round is an increment by the least offer, or settles the first holder that is short. -/
theorem next?_cases (hr : next? edges holders l = some r) :
    (∃ increment, r = .uniform (activeEdges edges l).length increment ∧ 0 < increment.units ∧
      leastOffer l (sharers holders (activeEdges edges l)) = increment) ∨
    ∃ h, r = .settle h (h.remaining l) (h.degree (activeEdges edges l)) ∧
      firstShort? l (sharers holders (activeEdges edges l)) =
        some (h, h.degree (activeEdges edges l)) := by
  simp only [next?, ofActive?] at hr
  split at hr
  · cases hr
  split at hr
  · obtain ⟨⟨h, n⟩, hfind, rfl⟩ := Option.map_eq_some_iff.1 hr
    obtain ⟨rfl, -, -⟩ := mem_sharers.1 (List.mem_of_find?_eq_some hfind)
    exact .inr ⟨h, rfl, hfind⟩
  · next hz =>
    exact .inl ⟨_, (Option.some.inj hr).symm, Volume.not_isZero_iff.1 (by simpa using hz), rfl⟩

/-- The least offer is somebody's, and at most that of each sharer. -/
theorem leastOffer_spec {sharers : List (Holder × Nat)} {s : Holder × Nat} (hs : s ∈ sharers) :
    (leastOffer l sharers).units ≤ ((s.1.remaining l).floorShare s.2).units ∧
      ∃ s' ∈ sharers, leastOffer l sharers = (s'.1.remaining l).floorShare s'.2 := by
  have hoffer := List.mem_map_of_mem (f := fun s => (s.1.remaining l).floorShare s.2) hs
  obtain ⟨v, hv⟩ := Option.isSome_iff_exists.1 (List.isSome_min?_of_mem hoffer)
  obtain ⟨s', hs', he⟩ := List.mem_map.1 (List.min?_mem hv)
  rw [leastOffer, hv, Option.getD_some]
  exact ⟨(List.le_min?_iff hv).1 (Nat.le_refl _) _ hoffer, s', hs', he.symm⟩

theorem leastOffer_mul_le {active : List Edge} {h : Holder} (hh : h ∈ holders)
    (hd : 0 < h.degree active) :
    (leastOffer l (sharers holders active)).units * h.degree active ≤ (h.remaining l).units := by
  have hmem : (h, h.degree active) ∈ sharers holders active := mem_sharers.2 ⟨rfl, hd, hh⟩
  have hle := (leastOffer_spec (l := l) hmem).1
  rw [Volume.floorShare, if_neg (by omega)] at hle
  exact (Nat.le_div_iff_mul_le hd).1 hle

theorem isSome_firstShort? {active : List Edge} {h : Holder} (hh : h ∈ holders)
    (hd : 0 < h.degree active) (h0 : (leastOffer l (sharers holders active)).units = 0) :
    (firstShort? l (sharers holders active)).isSome := by
  have hmem : (h, h.degree active) ∈ sharers holders active := mem_sharers.2 ⟨rfl, hd, hh⟩
  obtain ⟨⟨h', n⟩, hmem', hleast⟩ := (leastOffer_spec (l := l) hmem).2
  obtain ⟨-, hn, -⟩ := mem_sharers.1 hmem'
  rw [hleast, Volume.floorShare, if_neg (by omega)] at h0
  rw [firstShort?, List.find?_isSome]
  refine ⟨_, hmem', decide_eq_true ?_⟩
  rcases Nat.div_eq_zero_iff.1 h0 with h0 | h0
  · omega
  · exact h0

theorem firstShort?_spec {active : List Edge} {h : Holder}
    (hs : firstShort? l (sharers holders active) = some (h, h.degree active)) :
    h ∈ holders ∧ (h.remaining l).units < h.degree active :=
  ⟨(mem_sharers.1 (List.mem_of_find?_eq_some hs)).2.2, by simpa using List.find?_some hs⟩

theorem granted_uniform (n : Nat) (increment : Volume) (p : Edge → Bool) :
    granted edges l (.uniform n increment) p =
      increment.units * (activeEdges edges l).countP p :=
  unitsAlong_uniform p (·.isActive l) increment edges

/-- A holder that settles deals out parts to the active edges that it owns. -/
theorem granted_settle (h : Holder) (held : Volume) (n : Nat) (p : Edge → Bool) :
    granted edges l (.settle h held n) p =
      unitsAlong p (((activeEdges edges l).filter h.owns).zip (held.split n)) := by
  rw [granted, grants, unitsAlong_deal, filter_activeEdges]

theorem granted_settle_le_countP (edges : List Edge) (l : Ledger) (h : Holder) {held : Volume}
    {n : Nat} (hs : held.units < n) (p : Edge → Bool) :
    granted edges l (.settle h held n) p ≤ ((activeEdges edges l).filter h.owns).countP p := by
  rw [granted_settle]
  exact unitsAlong_zip_le_countP fun _ => Volume.units_le_one_of_mem_split hs

theorem granted_settle_isAt (h : Holder) (held : Volume)
    (hs : held.units < h.degree (activeEdges edges l)) :
    granted edges l (.settle h held (h.degree (activeEdges edges l))) (·.isAt h.side h.slot) =
      held.units := by
  have hlen : h.degree (activeEdges edges l) = ((activeEdges edges l).filter h.owns).length :=
    List.countP_eq_length_filter
  rw [granted_settle, unitsAlong_eq_unitsIn, List.map_snd_zip, held.unitsIn_split (by omega)]
  · exact Nat.le_of_eq (by rw [Volume.length_split, hlen])
  · intro g hg
    exact Edge.isAt_iff.2 (Holder.ends_of_owns (List.mem_filter.1 (List.of_mem_zip hg).1).2)

theorem exists_isActive_of_granted_pos {p : Edge → Bool} (h : 0 < granted edges l r p) :
    ∃ e ∈ edges, p e ∧ e.isActive l := by
  apply Classical.byContradiction
  intro hno
  have : granted edges l r p = 0 := by
    refine unitsAlong_eq_zero fun g hg hp => ?_
    rcases Nat.eq_zero_or_pos g.2.units with h0 | h0
    · exact h0
    · exact absurd ⟨g.1, (List.of_mem_zip hg).1, hp, isActive_of_grants hg h0⟩ hno
  omega

end

section
variable {tier : TierPlan} {l : Ledger} {r : Round}

/-- The rounds of a tier end only when no edge is active. -/
theorem next?_eq_none_iff (ht : tier.Fits l) :
    next? tier.edges (tier.holders l) l = none ↔ activeEdges tier.edges l = [] := by
  constructor
  · intro h
    apply Classical.byContradiction
    intro hne
    obtain ⟨e, he⟩ := List.exists_mem_of_ne_nil _ hne
    obtain ⟨s, hs, ho, -⟩ := ht.exists_holder (mem_activeEdges.1 he).1 .supply
    have hdeg : 0 < s.degree (activeEdges tier.edges l) := List.countP_pos_iff.2 ⟨e, he, ho⟩
    simp only [next?, ofActive?] at h
    rw [if_neg (by simpa using hne)] at h
    split at h
    · next hz =>
      have := isSome_firstShort? hs hdeg (Volume.isZero_iff.1 hz)
      rw [Option.map_eq_none_iff.1 h] at this
      cases this
    · cases h
  · intro h; simp [next?, ofActive?, h]

/-- At most one active edge of a holder is at a slot that is not the holder's own. -/
theorem countP_owned_isAt (ht : tier.Fits l) {h : Holder} {side : Side} {i : Nat}
    (hne : ¬ (side = h.side ∧ i = h.slot)) :
    ((activeEdges tier.edges l).filter h.owns).countP (·.isAt side i) ≤ 1 := by
  rcases Nat.eq_zero_or_pos
    (((activeEdges tier.edges l).filter h.owns).countP (·.isAt side i)) with h0 | hpos
  · omega
  obtain ⟨e, he, hat⟩ := List.countP_pos_iff.1 hpos
  obtain ⟨hact, ho⟩ := List.mem_filter.1 he
  rw [Edge.isAt_iff] at hat
  have hside : side ≠ h.side := by
    rintro rfl; exact hne ⟨rfl, hat.symm.trans (Holder.ends_of_owns ho)⟩
  -- both ends are fixed, so these are edges between two slots
  refine Nat.le_trans ?_ (ht.countP_isActive_joins l e.ends)
  rw [List.countP_filter]
  refine List.countP_mono_left fun e' _ hp => ?_
  simp only [Bool.and_eq_true, Edge.isAt_iff] at hp
  have hslot := (Holder.ends_of_owns hp.2).trans (Holder.ends_of_owns ho).symm
  have hother := hp.1.trans hat.symm
  rw [Edge.joins_iff]
  cases hs : h.side <;> cases side <;> simp_all [BySide.ext_iff, BySide.get]

/-- No round overdraws a slot. -/
theorem granted_isAt_le (ht : tier.Fits l) (hr : next? tier.edges (tier.holders l) l = some r)
    (side : Side) (i : Nat) :
    granted tier.edges l r (·.isAt side i) ≤ (l.remaining side i).units := by
  have hedges : ∀ e ∈ activeEdges tier.edges l, e ∈ tier.edges := fun e he =>
    (mem_activeEdges.1 he).1
  rcases next?_cases hr with ⟨increment, rfl, -, hinc⟩ | ⟨h, rfl, hs⟩
  · rw [granted_uniform]
    rcases Nat.eq_zero_or_pos ((activeEdges tier.edges l).countP (·.isAt side i)) with h0 | hpos
    · rw [h0]; exact Nat.zero_le _
    · obtain ⟨e, he, hat⟩ := List.countP_pos_iff.1 hpos
      obtain ⟨h, hh, ho, rfl⟩ := ht.exists_holder (hedges e he) side
      have hslot : h.slot = i := (Holder.ends_of_owns ho).symm.trans (Edge.isAt_iff.1 hat)
      have hdeg : h.degree (activeEdges tier.edges l) = _ := ht.degree_eq hh
      have := leastOffer_mul_le (l := l) hh (List.countP_pos_iff.2 ⟨e, he, ho⟩)
      rwa [hinc, hdeg, Holder.remaining_eq, hslot] at this
  · obtain ⟨-, hshort⟩ := firstShort?_spec hs
    by_cases hown : side = h.side ∧ i = h.slot
    · obtain ⟨rfl, rfl⟩ := hown
      exact Nat.le_of_eq (by rw [granted_settle_isAt _ _ hshort, Holder.remaining_eq])
    · -- every other slot gives at most one unit, and only if it is live
      rcases Nat.eq_zero_or_pos (granted tier.edges l
        (.settle h (h.remaining l) (h.degree (activeEdges tier.edges l))) (·.isAt side i))
        with h0 | hpos
      · omega
      · obtain ⟨e, -, hat, hact⟩ := exists_isActive_of_granted_pos hpos
        have hlive := (Edge.isActive_iff.1 hact).1 side
        rw [Edge.isAt_iff.1 hat, Ledger.isLive_iff] at hlive
        have := granted_settle_le_countP tier.edges l h hshort (·.isAt side i)
        have := countP_owned_isAt ht hown
        omega

theorem settle_exhausts {h : Holder} {held : Volume} {n : Nat}
    (hr : next? tier.edges (tier.holders l) l = some (.settle h held n)) :
    granted tier.edges l (.settle h held n) (·.isAt h.side h.slot) =
      (l.remaining h.side h.slot).units := by
  rcases next?_cases hr with ⟨_, hc, -⟩ | ⟨h', hc, hs⟩
  · cases hc
  · cases hc
    rw [granted_settle_isAt _ _ (firstShort?_spec hs).2, Holder.remaining_eq]

/-! ### What a round grants between two slots -/

theorem granted_joins_le (ht : tier.Fits l) (hr : next? tier.edges (tier.holders l) l = some r)
    (ends : BySide Nat) : granted tier.edges l r (·.joins ends) ≤ r.level + 1 := by
  have hone := ht.countP_isActive_joins l ends
  rcases next?_cases hr with ⟨increment, rfl, -, -⟩ | ⟨h, rfl, hs⟩
  · rw [granted_uniform]
    have := Nat.mul_le_mul_left increment.units hone
    show _ ≤ increment.units + 1
    omega
  · refine Nat.le_trans (granted_settle_le_countP _ _ _ (firstShort?_spec hs).2 _) ?_
    rw [List.countP_filter]
    refine Nat.le_trans (List.countP_mono_left fun e _ hp => ?_) (Nat.le_trans hone (by simp))
    exact (Bool.and_eq_true_iff.1 hp).1

/-- Two slots of which neither is the one that settles get no more than the level. -/
theorem granted_joins_le_level (ht : tier.Fits l)
    (hr : next? tier.edges (tier.holders l) l = some r) {ends : BySide Nat}
    (hlive : ∀ side, granted tier.edges l r (·.isAt side (ends.get side)) <
      (l.remaining side (ends.get side)).units) :
    granted tier.edges l r (·.joins ends) ≤ r.level := by
  rcases next?_cases hr with ⟨increment, rfl, -, -⟩ | ⟨h, rfl, hs⟩
  · rw [granted_uniform]
    have := Nat.mul_le_mul_left increment.units (ht.countP_isActive_joins l ends)
    show _ ≤ increment.units
    omega
  · have hzero : ((activeEdges tier.edges l).filter h.owns).countP (·.joins ends) = 0 := by
      refine List.countP_eq_zero.2 fun e he hj => ?_
      have hslot := Holder.ends_of_owns (List.mem_filter.1 he).2
      have hlt := hlive h.side
      rw [← Edge.joins_iff.1 hj, hslot, settle_exhausts hr] at hlt
      omega
    have := granted_settle_le_countP tier.edges l h (firstShort?_spec hs).2 (·.joins ends)
    show _ ≤ 0
    omega

theorem level_le_granted (hr : next? tier.edges (tier.holders l) l = some r) {e : Edge}
    (he : e ∈ tier.edges) (ha : e.isActive l) :
    r.level ≤ granted tier.edges l r (·.joins e.ends) := by
  rcases next?_cases hr with ⟨increment, rfl, -, -⟩ | ⟨h, rfl, -⟩
  · have : 0 < (activeEdges tier.edges l).countP (·.joins e.ends) :=
      List.countP_pos_iff.2 ⟨e, mem_activeEdges.2 ⟨he, ha⟩, Edge.joins_iff.2 rfl⟩
    rw [granted_uniform]
    exact Nat.le_mul_of_pos_right _ this
  · exact Nat.zero_le _

end
end Round
end FairShare
