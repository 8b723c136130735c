import FairShare.Proofs.Tier.Exchange
import FairShare.Proofs.Tier.Unitwise
import Mathlib.Data.List.Nodup
import Mathlib.Data.List.Perm.Subperm

/-!
# The earlier of two alike

Two slots of a side are alike if the edges of one lead where those of the other do, and are active
when those are. `TierPlan.Outranks` says that the first of them also comes first wherever anybody
chooses between the two: among the edges of an other end, and among those who may have to settle.
Then it gets no less in any round in which it lives (`Filling.granted_le`): an increment goes to as
many edges of both; one who settles reaches its earlier edges first; and the second settles only if it
has fewer units than the first, which has had no more to start with and has got no less.

Members that want the same are alike (`Fits.outranks_demand`), and so are supplies that are always
named together (`Fits.outranks_supply`).
-/

namespace FairShare

/-! ### Two in a list -/

theorem not_sublist_swap {α : Type} {a b : α} {as : List α} (hn : as.Nodup)
    (h : [a, b].Sublist as) : ¬ [b, a].Sublist as := by
  induction as with
  | nil => nomatch h
  | cons c as ih =>
    obtain ⟨hc, hn⟩ := List.nodup_cons.1 hn
    intro h'
    cases h with
    | cons _ h =>
      cases h' with
      | cons _ h' => exact ih hn h h'
      | cons_cons _ h' => exact hc (h.subset (by simp))
    | cons_cons _ h =>
      cases h' with
      | cons _ h' => exact hc (h'.subset (by simp))
      | cons_cons _ h' => exact hc (h.subset (by simp))

/-- If there is at most one of a kind in a list, and one of another kind before it, then there are no
more of it than of the other in any number of first ones. -/
theorem countP_take_le {α : Type} {p q : α → Bool} {as : List α}
    (horder : as.Pairwise fun a b => q a → ¬ p b) (hone : as.countP q ≤ 1)
    (hle : as.countP q ≤ as.countP p) (k : Nat) : (as.take k).countP q ≤ (as.take k).countP p := by
  induction as generalizing k with
  | nil => simp
  | cons a as ih =>
    cases k with
    | zero => simp
    | succ k =>
      obtain ⟨ha, horder⟩ := List.pairwise_cons.1 horder
      have htake : (as.take k).countP q ≤ as.countP q := (List.take_sublist k as).countP_le
      rw [List.take_succ_cons, List.countP_cons, List.countP_cons]
      rw [List.countP_cons] at hone
      rw [List.countP_cons, List.countP_cons] at hle
      by_cases hq : q a
      · have hnone : as.countP p = 0 := List.countP_eq_zero.2 fun b hb => ha b hb hq
        rw [if_pos hq] at hone hle ⊢
        omega
      · rw [if_neg hq] at hone hle ⊢
        by_cases hp : p a
        · rw [if_pos hp]; omega
        · rw [if_neg hp] at hle ⊢
          exact ih horder hone hle k

/-! ### Outranking -/

/-- The slot at the other end. -/
def Edge.across (side : Side) (e : Edge) : Nat :=
  match side with
  | .demand => e.supply
  | .supply => e.demand

theorem Edge.ends_eq {side : Side} {e e' : Edge} (h : e.ends.get side = e'.ends.get side)
    (ha : e.across side = e'.across side) : e.ends = e'.ends := by
  cases side with
  | demand => exact BySide.ext h ha
  | supply => exact BySide.ext ha h

theorem Edge.ends_of_ne {side other : Side} (h : other ≠ side) (e : Edge) :
    e.ends.get other = e.across side := by
  cases side <;> cases other <;> first | rfl | exact absurd rfl h

/-- The active edges at a slot lead to different slots. -/
theorem TierPlan.Fits.nodup_across {tier : TierPlan} {l : Ledger} (ht : tier.Fits l) (l' : Ledger)
    (side : Side) (i : Nat) :
    (((Round.activeEdges tier.edges l').filter (·.isAt side i)).map (·.across side)).Nodup := by
  refine List.pairwise_map.2 (List.pairwise_filter.2 ?_)
  refine (pairwise_activeEdges ht.pairwise_edges l').imp fun hne hat hat' hacross => hne ?_
  exact Edge.ends_eq ((Edge.isAt_iff.1 hat).trans (Edge.isAt_iff.1 hat').symm) hacross

def Holder.isAt (side : Side) (slot : Nat) (h : Holder) : Prop := h.side = side ∧ h.slot = slot

/-- The first of two slots of a side has an edge like each edge of the second, and comes before it. -/
structure TierPlan.Outranks (tier : TierPlan) (l : Ledger) (side : Side) (i j : Nat) : Prop where
  ne : i ≠ j
  alike : ∀ e ∈ tier.edges, e.isAt side j →
    ∃ e' ∈ tier.edges, e'.isAt side i ∧ e'.across side = e.across side ∧ e'.ahead ⊆ e.ahead
  edges : tier.edges.Pairwise fun e e' =>
    (e.isAt side j ∧ e'.isAt side i ∧ e.across side = e'.across side) → e.supply ∈ e'.ahead
  holders : (tier.holders l).Pairwise fun h h' => h.isAt side j → ¬ h'.isAt side i

namespace TierPlan.Outranks
variable {tier : TierPlan} {l l' : Ledger} {side : Side} {i j : Nat}

theorem congr (h : tier.Outranks l side i j) (hh : tier.holders l = tier.holders l') :
    tier.Outranks l' side i j := ⟨h.ne, h.alike, h.edges, hh ▸ h.holders⟩

/-- As long as the first slot holds something, it has an active edge like each one of the second. -/
theorem exists_isActive (h : tier.Outranks l side i j) (hi : l'.isLive side i) {e : Edge}
    (he : e ∈ tier.edges) (hat : e.isAt side j) (ha : e.isActive l') :
    ∃ e' ∈ Round.activeEdges tier.edges l', e'.isAt side i ∧ e'.across side = e.across side := by
  obtain ⟨e', he', hat', hacross, hahead⟩ := h.alike e he hat
  obtain ⟨hends, hdry⟩ := Edge.isActive_iff.1 ha
  refine ⟨e', Round.mem_activeEdges.2 ⟨he', Edge.isActive_iff.2 ⟨fun other => ?_, ?_⟩⟩, hat', hacross⟩
  · by_cases hs : other = side
    · rw [hs, Edge.isAt_iff.1 hat']
      exact hi
    · rw [Edge.ends_of_ne hs, hacross, ← Edge.ends_of_ne hs]
      exact hends other
  · exact fun s hs => hdry s (hahead hs)

/-- The first slot has at least as many active edges. -/
theorem countP_isAt_le (h : tier.Outranks l side i j) (ht : tier.Fits l) (hi : l'.isLive side i) :
    (Round.activeEdges tier.edges l').countP (·.isAt side j) ≤
      (Round.activeEdges tier.edges l').countP (·.isAt side i) := by
  have hsubset : ((Round.activeEdges tier.edges l').filter (·.isAt side j)).map (·.across side) ⊆
      ((Round.activeEdges tier.edges l').filter (·.isAt side i)).map (·.across side) := by
    intro slot hslot
    obtain ⟨e, he, rfl⟩ := List.mem_map.1 hslot
    obtain ⟨hact, hat⟩ := List.mem_filter.1 he
    obtain ⟨hmem, hact⟩ := Round.mem_activeEdges.1 hact
    obtain ⟨e', he', hat', hacross⟩ := h.exists_isActive hi hmem hat hact
    exact List.mem_map.2 ⟨e', List.mem_filter.2 ⟨he', hat'⟩, hacross⟩
  have hle := ((ht.nodup_across l' side j).subperm hsubset).length_le
  rwa [List.length_map, List.length_map, ← List.countP_eq_length_filter,
    ← List.countP_eq_length_filter] at hle

/-- Of the edges that anybody else owns, the first slot has as many among the first few. -/
theorem countP_take_owned_le (h : tier.Outranks l side i j) (ht : tier.Fits l')
    (hi : l'.isLive side i) {x : Holder} (hx : x ∈ tier.holders l') (hj : ¬ x.isAt side j) (k : Nat) :
    (((Round.activeEdges tier.edges l').filter x.owns).take k).countP (·.isAt side j) ≤
      (((Round.activeEdges tier.edges l').filter x.owns).take k).countP (·.isAt side i) := by
  by_cases hside : x.side = side
  · have hnone : (((Round.activeEdges tier.edges l').filter x.owns).take k).countP
        (·.isAt side j) = 0 := by
      refine List.countP_eq_zero.2 fun e he hat => hj ⟨hside, ?_⟩
      have ho := (List.mem_filter.1 (List.mem_of_mem_take he)).2
      rw [← Holder.ends_of_owns ho, hside, Edge.isAt_iff.1 hat]
    omega
  have hacross : ∀ {e : Edge}, x.owns e → e.across side = x.slot := fun ho =>
    (Edge.ends_of_ne hside _).symm.trans (Holder.ends_of_owns ho)
  have hone : ((Round.activeEdges tier.edges l').filter x.owns).countP (·.isAt side j) ≤ 1 :=
    Round.countP_owned_isAt ht fun heq => hj ⟨heq.1.symm, heq.2.symm⟩
  refine countP_take_le ?_ hone ?_ k
  · refine List.pairwise_filter.2 ((pairwise_activeEdges h.edges l').imp ?_)
    exact fun hno ho ho' hat hat' => hno ⟨hat, hat', (hacross ho).trans (hacross ho').symm⟩
  · rcases Nat.eq_zero_or_pos
      (((Round.activeEdges tier.edges l').filter x.owns).countP (·.isAt side j)) with h0 | hpos
    · omega
    obtain ⟨e, he, hat⟩ := List.countP_pos_iff.1 hpos
    obtain ⟨hact, ho⟩ := List.mem_filter.1 he
    obtain ⟨hmem, hact⟩ := Round.mem_activeEdges.1 hact
    obtain ⟨e', he', hat', heq⟩ := h.exists_isActive hi hmem hat hact
    have ho' : x.owns e' := by
      rw [ht.owns_iff hx (Round.mem_activeEdges.1 he').1, Edge.ends_of_ne hside, heq, hacross ho]
    have : 0 < ((Round.activeEdges tier.edges l').filter x.owns).countP (·.isAt side i) :=
      List.countP_pos_iff.2 ⟨e', List.mem_filter.2 ⟨he', ho'⟩, hat'⟩
    omega

/-- The second slot is not the first who is short if the first slot holds no more. -/
theorem not_isAt_of_find? (h : tier.Outranks l side i j) (ht : tier.Fits l) (hi : l.isLive side i)
    (hle : (l.remaining side i).units ≤ (l.remaining side j).units) {x : Holder}
    (hx : (tier.holders l).find? (fun x =>
      (x.remaining l).units < x.degree (Round.activeEdges tier.edges l)) = some x) :
    ¬ x.isAt side j := by
  intro hj
  have hactive : ∀ e ∈ Round.activeEdges tier.edges l, e ∈ tier.edges := fun e he =>
    (Round.mem_activeEdges.1 he).1
  have hshort : (l.remaining side j).units <
      (Round.activeEdges tier.edges l).countP (·.isAt side j) := by
    have hshort := List.find?_some hx
    rwa [decide_eq_true_iff, ht.degree_eq (List.mem_of_find?_eq_some hx),
      Holder.remaining_eq, hj.1, hj.2] at hshort
  have hcount := h.countP_isAt_le ht hi
  obtain ⟨e, he, hat⟩ := List.countP_pos_iff.1 (Nat.lt_of_lt_of_le (Nat.zero_lt_of_lt hshort) hcount)
  obtain ⟨y, hy, ho, hside⟩ := ht.exists_holder (hactive e he) side
  have hyi : y.isAt side i :=
    ⟨hside, (Holder.ends_of_owns ho).symm.trans (hside ▸ Edge.isAt_iff.1 hat)⟩
  -- the holder of the first slot comes before that of the second, and would be short as well
  obtain ⟨-, before, after, hholders, hbefore⟩ := List.find?_eq_some_iff_append.1 hx
  have hybefore : y ∈ before := by
    have horder := h.holders
    rw [hholders] at hy horder
    rcases List.mem_append.1 hy with hy | hy
    · exact hy
    · have hafter := (List.pairwise_cons.1 (List.pairwise_append.1 horder).2.1).1
      rcases List.mem_cons.1 hy with rfl | hy
      · exact absurd (hyi.2.symm.trans hj.2) h.ne
      · exact absurd hyi (hafter y hy hj)
  have hyshort := hbefore y hybefore
  rw [ht.degree_eq (hholders ▸ List.mem_append_left _ hybefore), Holder.remaining_eq, hyi.1, hyi.2,
    Bool.not_eq_true', decide_eq_false_iff_not] at hyshort
  omega

end TierPlan.Outranks

namespace Filling
variable {tier : TierPlan} {l : Ledger} {f : Filling} {r : Round} {side : Side} {i j : Nat}

theorem unitsAlong_zip_ones (p : Edge → Bool) (edges : List Edge) (k n : Nat) :
    unitsAlong p (edges.zip (List.replicate k .one ++ List.replicate n .zero)) =
      (edges.take k).countP p := by
  induction k generalizing edges with
  | zero =>
    refine unitsAlong_eq_zero fun g hg _ => ?_
    rw [List.eq_of_mem_replicate (List.of_mem_zip hg).2]
    rfl
  | succ k ih =>
    cases edges with
    | nil => rfl
    | cons e edges =>
      rw [List.replicate_succ, List.cons_append, List.zip_cons_cons, unitsAlong_cons, ih,
        List.take_succ_cons, List.countP_cons, Nat.add_comm]
      rfl

/-- One who settles gives a unit to each of as many edges as it has units. -/
theorem granted_settle_eq {edges : List Edge} {l : Ledger} {x : Holder} {held : Volume} {n : Nat}
    (hs : held.units < n) (p : Edge → Bool) : Round.granted edges l (.settle x held n) p =
      (((Round.activeEdges edges l).filter x.owns).take held.units).countP p := by
  rw [Round.granted_settle, Volume.split_of_lt hs, unitsAlong_zip_ones]

/-- As long as the first slot holds something, but no more than the second, it is granted no less. -/
theorem granted_le (h : tier.Outranks l side i j) (ht : tier.Fits l) (hb : f.Balanced tier.edges l)
    (hr : Round.next? tier.edges (tier.holders l) f.ledger = some r)
    (hi : f.ledger.isLive side i)
    (hle : (f.ledger.remaining side i).units ≤ (f.ledger.remaining side j).units) :
    r.granted tier.edges f.ledger (·.isAt side j) ≤
      r.granted tier.edges f.ledger (·.isAt side i) := by
  have hout := h.congr (hb.holders_eq tier)
  have hfits := hb.fits ht
  rw [hb.holders_eq tier] at hr
  rcases Round.next?_cases hr with ⟨increment, rfl, -, -⟩ | ⟨x, rfl, hs⟩
  · rw [Round.granted_uniform, Round.granted_uniform]
    exact Nat.mul_le_mul_left _ (hout.countP_isAt_le hfits hi)
  · obtain ⟨hx, hshort⟩ := Round.firstShort?_spec hs
    have hj := hout.not_isAt_of_find? hfits hi hle (Round.find?_of_firstShort? hs)
    rw [granted_settle_eq hshort, granted_settle_eq hshort]
    exact hout.countP_take_owned_le hfits hi hx hj _

/-- The first slot has got no less than the second, unless it is exhausted. -/
theorem along_apply_le (h : tier.Outranks l side i j) (ht : tier.Fits l)
    (hb : f.Balanced tier.edges l)
    (hr : Round.next? tier.edges (tier.holders l) f.ledger = some r)
    (hstart : (l.remaining side i).units ≤ (l.remaining side j).units)
    (hle : f.ledger.isLive side i →
      f.along tier.edges (·.isAt side j) ≤ f.along tier.edges (·.isAt side i))
    (hi : (f.apply tier.edges r).ledger.isLive side i) :
    (f.apply tier.edges r).along tier.edges (·.isAt side j) ≤
      (f.apply tier.edges r).along tier.edges (·.isAt side i) := by
  have hlive : f.ledger.isLive side i :=
    Classical.byContradiction fun hdead => not_isLive_apply r hdead hi
  have halong := hle hlive
  have hleft : (f.ledger.remaining side i).units ≤ (f.ledger.remaining side j).units := by
    have := hb.balance side i
    have := hb.balance side j
    omega
  have hgranted := granted_le h ht hb hr hlive hleft
  rw [hb.along_apply ht hr, hb.along_apply ht hr]
  exact Nat.add_le_add halong hgranted

end Filling

namespace TierPlan
variable {tier : TierPlan} {l : Ledger} {side : Side} {i j : Nat}

/-- Who has no more to start with than another whom it outranks ends up exhausted or with no less. -/
theorem Outranks.exchanged_le (h : tier.Outranks l side i j) (ht : tier.Fits l)
    (hstart : l.remaining side i ≤ l.remaining side j) :
    (tier.resolve l).ledger.remaining side i = .zero ∨
      exchanged (tier.resolve l).pairs side (l.id side j) ≤
        exchanged (tier.resolve l).pairs side (l.id side i) := by
  obtain ⟨hb, hle⟩ := fill_spec ht
    (P := fun f => f.ledger.isLive side i →
      f.along tier.edges (·.isAt side j) ≤ f.along tier.edges (·.isAt side i))
    (fun _ => by rw [Filling.along_start]; exact Nat.zero_le _)
    fun f r hb hle hr => Filling.along_apply_le h ht hb hr hstart hle
  by_cases hi : (tier.fill l).2.ledger.isLive side i
  · have hlive : l.isLive side i := hb.drainsTo.isLive hi
    have hj : l.isLive side j :=
      Ledger.isLive_iff.2 (Nat.lt_of_lt_of_le (Ledger.isLive_iff.1 hlive) hstart)
    rw [pairs_resolve, exchanged_pairs ht (Ledger.lt_size_of_isLive hlive),
      exchanged_pairs ht (Ledger.lt_size_of_isLive hj)]
    exact .inr (hle hi)
  · exact .inl (Volume.ext (Ledger.not_isLive_iff.1 hi))

end TierPlan

/-! ### Who outranks whom -/

/-- In each sub-tier the two want the same, in whatever order. -/
def Member.WantsLike (m n : Member) : Prop :=
  List.Forall₂ (fun p q => ∀ s, s ∈ p ↔ s ∈ q) m.targets n.targets

/-- Every sub-tier with one of the two supplies has both, in this order. -/
def TierPlan.NamesTogether (tier : TierPlan) (s t : Nat) : Prop :=
  ∀ m ∈ tier, ∀ peers ∈ m.targets, s ∈ peers ∨ t ∈ peers → [s, t].Sublist peers

theorem exists_of_forall₂_append {α β : Type} {R : α → β → Prop} {as : List α} {b : β}
    {before after : List β} (h : List.Forall₂ R as (before ++ b :: after)) :
    ∃ before' a after', as = before' ++ a :: after' ∧ List.Forall₂ R before' before ∧ R a b := by
  induction before generalizing as with
  | nil =>
    cases h with
    | cons hab h => exact ⟨[], _, _, rfl, .nil, hab⟩
  | cons b' before ih =>
    cases h with
    | cons hab' h =>
      obtain ⟨before', a, after', rfl, hbefore, hab⟩ := ih h
      exact ⟨_ :: before', a, after', rfl, .cons hab' hbefore, hab⟩

theorem flatten_subset {as bs : List (List Nat)}
    (h : List.Forall₂ (fun p q => ∀ s, s ∈ p ↔ s ∈ q) as bs) : as.flatten ⊆ bs.flatten := by
  induction h with
  | nil => exact List.Subset.refl _
  | cons hpq _ ih =>
    rw [List.flatten_cons, List.flatten_cons]
    exact List.append_subset.2 ⟨fun s hs => List.mem_append_left _ ((hpq s).1 hs),
      fun s hs => List.mem_append_right _ (ih hs)⟩

namespace TierPlan
variable {tier : TierPlan} {l : Ledger} {m n : Member} {s t : Nat}

/-- The earlier of two members comes before the later one, and not after it. -/
theorem Fits.pairwise_zipIdx (ht : tier.Fits l) (h : [m, n].Sublist tier) :
    tier.zipIdx.Pairwise fun a b => a.1.demand = n.demand → b.1.demand ≠ m.demand := by
  have hpair : tier.Pairwise fun a b => a.demand = n.demand → b.demand ≠ m.demand := by
    refine List.pairwise_iff_forall_sublist.2 fun {a b} hab hn hm => ?_
    have hmn : [m.demand, n.demand].Sublist (tier.map (·.demand)) := h.map _
    have hswap : [a.demand, b.demand].Sublist (tier.map (·.demand)) := hab.map _
    rw [hn, hm] at hswap
    exact not_sublist_swap ht.nodup_demand hmn hswap
  rw [← List.zipIdx_map_fst 0 tier] at hpair
  exact List.pairwise_map.1 hpair

theorem Fits.outranks_demand (ht : tier.Fits l) (h : [m, n].Sublist tier) (hlike : m.WantsLike n) :
    tier.Outranks l .demand m.demand n.demand := by
  have hpair := ht.pairwise_zipIdx h
  have hm : m ∈ tier := h.subset (List.mem_cons_self ..)
  have hn : n ∈ tier := h.subset (List.mem_cons_of_mem _ (List.mem_singleton_self n))
  have hne : m.demand ≠ n.demand := by
    have := ht.nodup_demand.sublist (h.map (·.demand))
    simpa using this
  refine ⟨hne, fun e he hat => ?_, ?_, ?_⟩
  · obtain ⟨before, peers, after, htargets, hs, hahead⟩ :=
      ht.targets_of_mem_edges hn he (Edge.isAt_iff.1 hat)
    rw [Member.WantsLike, htargets] at hlike
    obtain ⟨before', peers', after', htargets', hbefore, hpeers⟩ := exists_of_forall₂_append hlike
    obtain ⟨e', he', hends, hahead'⟩ := exists_mem_edges hm htargets' ((hpeers _).2 hs)
    refine ⟨e', he', Edge.isAt_iff.2 (congrArg BySide.demand hends),
      congrArg BySide.supply hends, ?_⟩
    rw [hahead, hahead']
    exact flatten_subset hbefore
  · rw [edges, List.pairwise_flatMap]
    constructor
    · rintro ⟨a, k⟩ -
      refine List.pairwise_of_forall_mem_list fun e he e' he' => ?_
      rintro ⟨hat, hat', -⟩
      obtain ⟨_, _, _, -, _, -, rfl⟩ := mem_edgesFrom.1 he
      obtain ⟨_, _, _, -, _, -, rfl⟩ := mem_edgesFrom.1 he'
      exact absurd ((Edge.isAt_iff.1 hat').symm.trans (Edge.isAt_iff.1 hat)) hne
    · refine hpair.imp fun hab e he e' he' => ?_
      rintro ⟨hat, hat', -⟩
      obtain ⟨_, _, _, -, _, -, rfl⟩ := mem_edgesFrom.1 he
      obtain ⟨_, _, _, -, _, -, rfl⟩ := mem_edgesFrom.1 he'
      exact absurd (Edge.isAt_iff.1 hat') (hab (Edge.isAt_iff.1 hat))
  · rw [holders, List.pairwise_append, List.pairwise_map, List.pairwise_map]
    refine ⟨hpair.imp fun hab ha hb => hab ha.2 hb.2,
      List.pairwise_of_forall fun _ _ ha => Side.noConfusion ha.1, fun _ _ x hx _ hb => ?_⟩
    obtain ⟨_, -, rfl⟩ := List.mem_map.1 hx
    cases hb.1

theorem Fits.outranks_supply (ht : tier.Fits l) (hlt : s < t) (h : tier.NamesTogether s t) :
    tier.Outranks l .supply s t := by
  refine ⟨Nat.ne_of_lt hlt, fun e he hat => ?_, ?_, ?_⟩
  · obtain ⟨m, i, hm, -, hd, before, peers, after, htargets, hs, hahead⟩ := exists_of_mem_edges he
    have hmem := List.fst_mem_of_mem_zipIdx hm
    have hst := h m hmem peers (by simp [htargets]) (.inr (Edge.isAt_iff.1 hat ▸ hs))
    obtain ⟨e', he', hends, hahead'⟩ :=
      exists_mem_edges hmem htargets (hst.subset (List.mem_cons_self ..))
    refine ⟨e', he', Edge.isAt_iff.2 (congrArg BySide.supply hends),
      (congrArg BySide.demand hends).trans hd.symm, ?_⟩
    rw [hahead, hahead']
    exact List.Subset.refl _
  · have hpeers : ∀ m ∈ tier, ∀ peers ∈ m.targets,
        peers.Pairwise fun u v => ¬ (u = t ∧ v = s) := by
      intro m hm peers hp
      refine List.pairwise_iff_forall_sublist.2 fun {u v} huv => ?_
      rintro ⟨rfl, rfl⟩
      exact not_sublist_swap (ht.nodup_peers m hm peers hp)
        (h m hm peers hp (.inr (huv.subset (List.mem_cons_self ..)))) huv
    refine (ht.pairwise_edges_of hpeers).imp fun hahead => ?_
    rintro ⟨hat, hat', hacross⟩
    exact hahead hacross ⟨Edge.isAt_iff.1 hat, Edge.isAt_iff.1 hat'⟩
  · rw [holders, List.pairwise_append, List.pairwise_map, List.pairwise_map]
    refine ⟨List.pairwise_of_forall fun _ _ ha => Side.noConfusion ha.1,
      List.pairwise_lt_range.imp fun {u v} huv ha hb => ?_, fun x hx _ _ ha => ?_⟩
    · have hut : u = t := ha.2
      have hvs : v = s := hb.2
      omega
    · obtain ⟨_, -, rfl⟩ := List.mem_map.1 hx
      cases ha.1

/-- Of two members that want the same, the earlier one, and of two supplies that are always named
together, the first one, ends up exhausted or with no less than the other, unless it has more to start
with. -/
theorem resolve_favoursEarlier (ht : tier.Fits l) :
    (∀ m n, [m, n].Sublist tier → m.WantsLike n →
      l.remaining .demand m.demand ≤ l.remaining .demand n.demand →
      (tier.resolve l).ledger.remaining .demand m.demand = .zero ∨
        exchanged (tier.resolve l).pairs .demand (l.id .demand n.demand) ≤
          exchanged (tier.resolve l).pairs .demand (l.id .demand m.demand)) ∧
    ∀ s t, s < t → tier.NamesTogether s t → l.remaining .supply s ≤ l.remaining .supply t →
      (tier.resolve l).ledger.remaining .supply s = .zero ∨
        exchanged (tier.resolve l).pairs .supply (l.id .supply t) ≤
          exchanged (tier.resolve l).pairs .supply (l.id .supply s) :=
  ⟨fun _ _ h hlike => (ht.outranks_demand h hlike).exchanged_le ht,
    fun _ _ hlt h => (ht.outranks_supply hlt h).exchanged_le ht⟩

/-- Two members short of supply, and two that leave some. -/
def sampleTwins : TierPlan :=
  [⟨0, [[0, 1]]⟩, ⟨2, [[2, 3]]⟩, ⟨1, [[1, 0]]⟩, ⟨3, [[2, 3]]⟩]

def sampleTwinsLedger : Ledger where
  slots := ⟨[⟨"a", .clamp 9⟩, ⟨"b", .clamp 9⟩, ⟨"c", .clamp 5⟩, ⟨"d", .clamp 5⟩],
    [⟨"w", .clamp 5⟩, ⟨"x", .clamp 5⟩, ⟨"y", .clamp 7⟩, ⟨"z", .clamp 8⟩]⟩
  nodup
    | .demand => by decide
    | .supply => by decide

/-- Of the members that stay short the first gets six units and the second four, and so it is with
the supplies that stay over. -/
theorem resolve_favoursEarlier_sample : sampleTwins.Fits sampleTwinsLedger ∧
    ["a", "b", "c", "d"].map (exchanged (sampleTwins.resolve sampleTwinsLedger).pairs .demand) =
      [6, 4, 5, 5] ∧
    ["w", "x", "y", "z"].map (exchanged (sampleTwins.resolve sampleTwinsLedger).pairs .supply) =
      [5, 5, 6, 4] ∧
    ((sampleTwins.resolve sampleTwinsLedger).ledger.remaining .demand 0 = .zero ∨
      exchanged (sampleTwins.resolve sampleTwinsLedger).pairs .demand "b" ≤
        exchanged (sampleTwins.resolve sampleTwinsLedger).pairs .demand "a") ∧
    ((sampleTwins.resolve sampleTwinsLedger).ledger.remaining .supply 2 = .zero ∨
      exchanged (sampleTwins.resolve sampleTwinsLedger).pairs .supply "z" ≤
        exchanged (sampleTwins.resolve sampleTwinsLedger).pairs .supply "y") := by
  have hfits : sampleTwins.Fits sampleTwinsLedger := by decide
  obtain ⟨hdemand, hsupply⟩ := resolve_favoursEarlier hfits
  have hlike : Member.WantsLike ⟨0, [[0, 1]]⟩ ⟨1, [[1, 0]]⟩ := .cons (by simp [or_comm]) .nil
  have htogether : sampleTwins.NamesTogether 2 3 := by
    unfold NamesTogether
    decide
  refine ⟨hfits, by decide +kernel, by decide +kernel, ?_, ?_⟩
  · exact hdemand ⟨0, [[0, 1]]⟩ ⟨1, [[1, 0]]⟩ (by decide) hlike (by decide)
  · exact hsupply 2 3 (by decide) htogether (by decide)

end TierPlan
end FairShare
