import FairShare.Proofs.Ledger.Transfer

/-!
# The shape of a tier

`TierPlan.Fits`: the slots of a tier are slots of the ledger, no demand slot has two members, and no
sub-tier names a supply slot twice. Nothing keeps a member from naming a slot in several sub-tiers.
It follows that among edges with the same two ends each one has its supply ahead of all later ones
(`Fits.pairwise_edges`), so that at most one of them is active (`Fits.countP_isActive_joins`), and
that a holder owns exactly the edges at its slot (`Fits.owns_iff`).
-/

namespace FairShare

/-- Where an edge of `edgesFrom` comes from: its sub-tier, and what lies before that. -/
theorem mem_edgesFrom {i d : Nat} {ahead : List Nat} {targets : List (List Nat)} {e : Edge} :
    e ∈ edgesFrom i d ahead targets ↔ ∃ before peers after, targets = before ++ peers :: after ∧
      ∃ s ∈ peers, e = ⟨i, d, s, ahead ++ before.flatten⟩ := by
  induction targets generalizing ahead with
  | nil => simp [edgesFrom]
  | cons peers rest ih =>
    rw [edgesFrom, List.mem_append, List.mem_map, ih]
    constructor
    · rintro (⟨s, hs, rfl⟩ | ⟨before, peers', after, rfl, s, hs, rfl⟩)
      · exact ⟨[], peers, rest, rfl, s, hs, by simp⟩
      · exact ⟨peers :: before, peers', after, rfl, s, hs, by simp⟩
    · rintro ⟨before, peers', after, h, s, hs, rfl⟩
      cases before with
      | nil =>
        obtain ⟨rfl, rfl⟩ := List.cons.inj h
        exact .inl ⟨s, hs, by simp⟩
      | cons p before =>
        obtain ⟨rfl, rfl⟩ := List.cons.inj h
        exact .inr ⟨before, peers', after, rfl, s, hs, by simp⟩

theorem edgesFrom_append (i d : Nat) (ahead : List Nat) (targets added : List (List Nat)) :
    edgesFrom i d ahead (targets ++ added) =
      edgesFrom i d ahead targets ++ edgesFrom i d (ahead ++ targets.flatten) added := by
  induction targets generalizing ahead with
  | nil => simp [edgesFrom]
  | cons peers rest ih =>
    rw [List.cons_append, edgesFrom, ih, edgesFrom, List.append_assoc, List.flatten_cons,
      List.append_assoc]

/-- A supply is ahead of a later edge if no sub-tier lists their two supplies in this order. -/
theorem pairwise_edgesFrom {R : Nat → Nat → Prop} (i d : Nat) (ahead : List Nat)
    {targets : List (List Nat)} (h : ∀ peers ∈ targets, peers.Pairwise fun s t => ¬ R s t) :
    (edgesFrom i d ahead targets).Pairwise fun e e' =>
      R e.supply e'.supply → e.supply ∈ e'.ahead := by
  induction targets generalizing ahead with
  | nil => exact .nil
  | cons peers rest ih =>
    rw [edgesFrom, List.pairwise_append]
    refine ⟨?_, ih _ fun p hp => h p (List.mem_cons_of_mem _ hp), ?_⟩
    · rw [List.pairwise_map]
      exact List.Pairwise.imp (fun hno hr => absurd hr hno) (h peers (by simp))
    · intro e he e' he' _
      obtain ⟨s, hs, rfl⟩ := List.mem_map.1 he
      obtain ⟨before, _, _, -, s', -, rfl⟩ := mem_edgesFrom.1 he'
      simp [hs]

theorem countP_le_one {α : Type} {p : α → Bool} {as : List α}
    (h : as.Pairwise fun a b => p a → ¬ p b) : as.countP p ≤ 1 := by
  induction as with
  | nil => simp
  | cons a as ih =>
    obtain ⟨ha, has⟩ := List.pairwise_cons.1 h
    by_cases hp : p a
    · have hnone : as.countP p = 0 := List.countP_eq_zero.2 fun b hb => ha b hb hp
      rw [List.countP_cons_of_pos hp]; omega
    · rw [List.countP_cons_of_neg hp]; exact ih has

theorem Edge.isActive_iff {l : Ledger} {e : Edge} :
    e.isActive l ↔ (∀ side, l.isLive side (e.ends.get side)) ∧
      ∀ s ∈ e.ahead, ¬ l.isLive .supply s := by
  rw [Side.forall_iff]
  simp only [isActive, Bool.and_eq_true, List.all_eq_true, Bool.not_eq_true', Bool.not_eq_true]
  rfl

/-- What is ahead of an active edge is used up, so the two edges of such a pair are never both active. -/
theorem pairwise_activeEdges {R : Edge → Edge → Prop} {edges : List Edge}
    (h : edges.Pairwise fun e e' => R e e' → e.supply ∈ e'.ahead) (l : Ledger) :
    (Round.activeEdges edges l).Pairwise fun e e' => ¬ R e e' :=
  List.pairwise_filter.2 <| h.imp fun hahead ha ha' hr =>
    (Edge.isActive_iff.1 ha').2 _ (hahead hr) ((Edge.isActive_iff.1 ha).1 .supply)

namespace Holder

def side : Holder → Side
  | member .. => .demand
  | supply _ => .supply

def slot : Holder → Nat
  | member _ d => d
  | supply s => s

theorem remaining_eq (l : Ledger) (h : Holder) : h.remaining l = l.remaining h.side h.slot := by
  cases h <;> rfl

theorem ends_of_owns {h : Holder} {e : Edge} (ho : h.owns e) : e.ends.get h.side = h.slot := by
  cases h with
  | member i d =>
    simp only [owns, Bool.and_eq_true, beq_iff_eq] at ho
    exact ho.2
  | supply s => exact beq_iff_eq.1 ho

end Holder

/-- The first sub-tier in which anything is left. -/
def Member.preferred (l : Ledger) (m : Member) : List Nat :=
  (m.targets.find? fun peers => peers.any (l.isLive .supply)).getD []

namespace TierPlan
variable {tier : TierPlan} {l : Ledger} {e : Edge}

theorem mem_edges : e ∈ tier.edges ↔
    ∃ m i, (m, i) ∈ tier.zipIdx ∧ e ∈ edgesFrom i m.demand [] m.targets := by
  simp [edges]

/-- Every edge is a supply in a sub-tier of a member, with the sub-tiers before it ahead. -/
theorem exists_of_mem_edges (he : e ∈ tier.edges) : ∃ m i, (m, i) ∈ tier.zipIdx ∧ e.member = i ∧
    e.demand = m.demand ∧ ∃ before peers after, m.targets = before ++ peers :: after ∧
      e.supply ∈ peers ∧ e.ahead = before.flatten := by
  obtain ⟨m, i, hm, he⟩ := mem_edges.1 he
  obtain ⟨before, peers, after, ht, s, hs, rfl⟩ := mem_edgesFrom.1 he
  exact ⟨m, i, hm, rfl, rfl, before, peers, after, ht, hs, rfl⟩

theorem exists_mem_edges {m : Member} (hm : m ∈ tier) {before after : List (List Nat)}
    {peers : List Nat} {s : Nat} (ht : m.targets = before ++ peers :: after) (hs : s ∈ peers) :
    ∃ e ∈ tier.edges, e.ends = ⟨m.demand, s⟩ ∧ e.ahead = before.flatten := by
  obtain ⟨i, hi⟩ := List.mem_iff_getElem?.1 hm
  refine ⟨⟨i, m.demand, s, before.flatten⟩, mem_edges.2 ⟨m, i, ?_, ?_⟩, rfl, rfl⟩
  · exact List.mk_mem_zipIdx_iff_getElem?.2 hi
  · exact mem_edgesFrom.2 ⟨before, peers, after, ht, s, hs, by simp⟩

/-- A live demand entity has active edges to what is live in its preferred sub-tier. -/
theorem exists_isActive {m : Member} (hm : m ∈ tier) {s : Nat} (hs : s ∈ m.preferred l)
    (hd : l.isLive .demand m.demand) (hl : l.isLive .supply s) :
    ∃ e ∈ tier.edges, e.ends = ⟨m.demand, s⟩ ∧ e.isActive l := by
  rw [Member.preferred] at hs
  cases hfind : m.targets.find? fun peers => peers.any (l.isLive .supply) with
  | none => rw [hfind] at hs; simp at hs
  | some peers =>
    rw [hfind] at hs
    obtain ⟨-, before, after, ht, hdry⟩ := List.find?_eq_some_iff_append.1 hfind
    obtain ⟨e, he, hends, hahead⟩ := exists_mem_edges hm ht hs
    refine ⟨e, he, hends, Edge.isActive_iff.2 ⟨fun side => ?_, fun s' hs' => ?_⟩⟩
    · rw [hends]
      cases side with
      | demand => exact hd
      | supply => exact hl
    · rw [hahead] at hs'
      obtain ⟨peers', hp, hs'⟩ := List.mem_flatten.1 hs'
      have := hdry peers' hp
      simp only [Bool.not_eq_true', List.any_eq_false] at this
      exact this s' hs'

theorem exists_mem_preferred {m : Member} {peers : List Nat} (hp : peers ∈ m.targets) {s : Nat}
    (hs : s ∈ peers) (hl : l.isLive .supply s) : ∃ s' ∈ m.preferred l, l.isLive .supply s' := by
  have hsome : (m.targets.find? fun peers => peers.any (l.isLive .supply)).isSome :=
    List.find?_isSome.2 ⟨peers, hp, List.any_eq_true.2 ⟨s, hs, hl⟩⟩
  obtain ⟨first, hfind⟩ := Option.isSome_iff_exists.1 hsome
  have hany : first.any (l.isLive .supply) := by simpa using List.find?_some hfind
  obtain ⟨s', hs', hl'⟩ := List.any_eq_true.1 hany
  exact ⟨s', by rw [Member.preferred, hfind]; exact hs', hl'⟩

end TierPlan

/-- A tier all of whose slots exist, with one member a demand slot and no supply slot twice in a
sub-tier. -/
structure TierPlan.Fits (tier : TierPlan) (l : Ledger) : Prop where
  demand_lt : ∀ m ∈ tier, m.demand < l.size .demand
  supply_lt : ∀ m ∈ tier, ∀ peers ∈ m.targets, ∀ s ∈ peers, s < l.size .supply
  nodup_demand : (tier.map (·.demand)).Nodup
  nodup_peers : ∀ m ∈ tier, ∀ peers ∈ m.targets, peers.Nodup

namespace TierPlan

instance (tier : TierPlan) (l : Ledger) : Decidable (tier.Fits l) :=
  decidable_of_iff
    ((∀ m ∈ tier, m.demand < l.size .demand) ∧
      (∀ m ∈ tier, ∀ peers ∈ m.targets, ∀ s ∈ peers, s < l.size .supply) ∧
      (tier.map (·.demand)).Nodup ∧ ∀ m ∈ tier, ∀ peers ∈ m.targets, peers.Nodup)
    ⟨fun ⟨hd, hs, hone, honce⟩ => ⟨hd, hs, hone, honce⟩,
      fun ⟨hd, hs, hone, honce⟩ => ⟨hd, hs, hone, honce⟩⟩

/-- Two members who want the same supply, of whom one has a preference. -/
def sampleTier : TierPlan := [⟨0, [[0], [1]]⟩, ⟨1, [[0, 1]]⟩]

def sampleLedger : Ledger where
  slots := ⟨[⟨"a", .clamp 9⟩, ⟨"b", .clamp 5⟩], [⟨"x", .clamp 7⟩, ⟨"y", .clamp 4⟩]⟩
  nodup
    | .demand => by decide
    | .supply => by decide

theorem fits_sample : sampleTier.Fits sampleLedger := by decide

end TierPlan

namespace TierPlan.Fits
variable {tier : TierPlan} {l l' : Ledger} {e : Edge} {h : Holder}

theorem congr (ht : tier.Fits l) (h : ∀ side, l'.ids side = l.ids side) : tier.Fits l' where
  demand_lt m hm := by rw [Ledger.size_congr (h .demand)]; exact ht.demand_lt m hm
  supply_lt m hm p hp s hs := by
    rw [Ledger.size_congr (h .supply)]; exact ht.supply_lt m hm p hp s hs
  nodup_demand := ht.nodup_demand
  nodup_peers := ht.nodup_peers

theorem lt_size (ht : tier.Fits l) (he : e ∈ tier.edges) (side : Side) :
    e.ends.get side < l.size side := by
  obtain ⟨m, i, hm, -, hd, before, peers, after, htg, hs, -⟩ := exists_of_mem_edges he
  have hmem : m ∈ tier := List.fst_mem_of_mem_zipIdx hm
  cases side with
  | demand => show e.demand < _; rw [hd]; exact ht.demand_lt m hmem
  | supply => exact ht.supply_lt m hmem peers (by simp [htg]) _ hs

theorem index_eq (ht : tier.Fits l) {m m' : Member} {i i' : Nat} (hm : (m, i) ∈ tier.zipIdx)
    (hm' : (m', i') ∈ tier.zipIdx) (hd : m.demand = m'.demand) : i = i' := by
  have hi : (tier.map (·.demand))[i]? = some m.demand := by
    rw [List.getElem?_map, List.mem_zipIdx_iff_getElem?.1 hm]; rfl
  have hi' : (tier.map (·.demand))[i']? = some m.demand := by
    rw [List.getElem?_map, List.mem_zipIdx_iff_getElem?.1 hm', hd]; rfl
  exact (List.getElem?_inj (List.getElem?_eq_some_iff.1 hi).1 ht.nodup_demand).1 (hi.trans hi'.symm)

/-- The edges at the slot of a member are those of the member. -/
theorem targets_of_mem_edges (ht : tier.Fits l) {m : Member} (hm : m ∈ tier) (he : e ∈ tier.edges)
    (hd : e.demand = m.demand) : ∃ before peers after, m.targets = before ++ peers :: after ∧
      e.supply ∈ peers ∧ e.ahead = before.flatten := by
  obtain ⟨n, i, hn, -, hd', htargets⟩ := TierPlan.exists_of_mem_edges he
  obtain ⟨j, hj⟩ := List.mem_iff_getElem?.1 hm
  obtain rfl := ht.index_eq hn (List.mk_mem_zipIdx_iff_getElem?.2 hj) (hd'.symm.trans hd)
  obtain rfl := Option.some.inj ((List.mk_mem_zipIdx_iff_getElem?.1 hn).symm.trans hj)
  exact htargets

theorem pairwise_edges_of (ht : tier.Fits l) {R : Nat → Nat → Prop}
    (h : ∀ m ∈ tier, ∀ peers ∈ m.targets, peers.Pairwise fun s t => ¬ R s t) :
    tier.edges.Pairwise fun e e' =>
      e.demand = e'.demand → R e.supply e'.supply → e.supply ∈ e'.ahead := by
  rw [edges, List.pairwise_flatMap]
  constructor
  · rintro ⟨m, i⟩ hm
    have hm := pairwise_edgesFrom i m.demand [] (h m (List.fst_mem_of_mem_zipIdx hm))
    refine hm.imp fun hahead => ?_
    exact fun _ => hahead
  · have hne : tier.zipIdx.Pairwise fun a b => a.1.demand ≠ b.1.demand := by
      have := ht.nodup_demand
      rw [← List.zipIdx_map_fst 0 tier, List.map_map] at this
      exact List.pairwise_map.1 this
    refine hne.imp fun {a b} hab e he e' he' heq => absurd ?_ hab
    obtain ⟨_, _, _, -, s, -, rfl⟩ := mem_edgesFrom.1 he
    obtain ⟨_, _, _, -, s', -, rfl⟩ := mem_edgesFrom.1 he'
    exact heq

/-- Of edges between the same slots, each has its supply ahead of the later ones. -/
theorem pairwise_edges (ht : tier.Fits l) :
    tier.edges.Pairwise fun e e' => e.ends = e'.ends → e.supply ∈ e'.ahead :=
  (ht.pairwise_edges_of ht.nodup_peers).imp fun h heq =>
    h (congrArg BySide.demand heq) (congrArg BySide.supply heq)

/-- At most one edge between two slots is active. -/
theorem countP_isActive_joins (ht : tier.Fits l) (l' : Ledger) (ends : BySide Nat) :
    (Round.activeEdges tier.edges l').countP (·.joins ends) ≤ 1 := by
  refine countP_le_one ((pairwise_activeEdges ht.pairwise_edges l').imp fun hne hj hj' => hne ?_)
  rw [Edge.joins_iff] at hj hj'
  exact hj.trans hj'.symm

theorem nodup_activeEdges (ht : tier.Fits l) (l' : Ledger) :
    (Round.activeEdges tier.edges l').Nodup :=
  (pairwise_activeEdges ht.pairwise_edges l').imp fun hne heq => hne (congrArg Edge.ends heq)

theorem owns_iff (ht : tier.Fits l) (hh : h ∈ tier.holders l) (he : e ∈ tier.edges) :
    h.owns e ↔ e.ends.get h.side = h.slot := by
  refine ⟨Holder.ends_of_owns, fun heq => ?_⟩
  rcases List.mem_append.1 hh with hh | hh
  · obtain ⟨⟨m, i⟩, hm, rfl⟩ := List.mem_map.1 hh
    obtain ⟨m', i', hm', hi, hd, -⟩ := exists_of_mem_edges he
    have hslot : e.demand = m.demand := heq
    have : i' = i := ht.index_eq hm' hm (hd ▸ hslot)
    simp [Holder.owns, hi, this, hslot]
  · obtain ⟨s, -, rfl⟩ := List.mem_map.1 hh
    exact beq_iff_eq.2 heq

theorem exists_holder (ht : tier.Fits l) (he : e ∈ tier.edges) (side : Side) :
    ∃ h ∈ tier.holders l, h.owns e ∧ h.side = side := by
  cases side with
  | demand =>
    obtain ⟨m, i, hm, hi, hd, -⟩ := exists_of_mem_edges he
    refine ⟨.member i m.demand, List.mem_append_left _ (List.mem_map.2 ⟨(m, i), hm, rfl⟩), ?_, rfl⟩
    simp [Holder.owns, hi, hd]
  | supply =>
    have hlt : e.supply < l.size .supply := ht.lt_size he .supply
    exact ⟨.supply e.supply, List.mem_append_right _ (List.mem_map.2 ⟨_, List.mem_range.2 hlt, rfl⟩),
      beq_self_eq_true _, rfl⟩

theorem degree_eq (ht : tier.Fits l) (hh : h ∈ tier.holders l) :
    h.degree (Round.activeEdges tier.edges l') =
      (Round.activeEdges tier.edges l').countP (·.isAt h.side h.slot) := by
  rw [Holder.degree]
  refine List.countP_congr fun e he => ?_
  rw [ht.owns_iff hh (List.mem_filter.1 he).1, Edge.isAt_iff]

end TierPlan.Fits
end FairShare
