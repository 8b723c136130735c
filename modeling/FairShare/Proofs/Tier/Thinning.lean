import FairShare.Proofs.Ledger.Thinning
import FairShare.Proofs.Tier.Shape
import Mathlib.Data.List.Forall2
import Mathlib.Data.List.Nodup

/-!
# Thinned tiers

`TierPlan.thin` is what is left of a tier on a thinner ledger: without the members that are gone,
without the supply that is gone, and without sub-tiers of which nothing is left. Members, edges and
holders that stay do so in the same order, with new slots and indices (`edges_thin`,
`holders_thin`). Indices matter only to what a holder owns, and there they agree
(`Holder.Thins.owns_eq`).
-/

namespace FairShare

theorem forall₂_mem {α β : Type} {R : α → β → Prop} {as : List α} {bs : List β}
    (h : List.Forall₂ R as bs) : List.Forall₂ (fun a b => (a ∈ as ∧ b ∈ bs) ∧ R a b) as bs :=
  List.forall₂_iff_zip.2 ⟨h.length_eq, fun hab => ⟨List.of_mem_zip hab, List.forall₂_zip h hab⟩⟩

theorem map_eq_of_forall₂ {α β γ : Type} {R : α → β → Prop} {f : α → γ} {g : β → γ} {as : List α}
    {bs : List β} (h : List.Forall₂ R as bs) (hfg : ∀ a b, R a b → g b = f a) :
    bs.map g = as.map f := by
  induction h with
  | nil => rfl
  | cons hab _ ih => rw [List.map_cons, List.map_cons, hfg _ _ hab, ih]

theorem filterMap_eq_of_forall₂ {α β γ : Type} {R : α → β → Prop} {f : α → Option γ}
    {g : β → Option γ} {as : List α} {bs : List β} (h : List.Forall₂ R as bs)
    (hfg : ∀ a b, R a b → g b = f a) : bs.filterMap g = as.filterMap f := by
  induction h with
  | nil => rfl
  | cons hab _ ih => rw [List.filterMap_cons, List.filterMap_cons, hfg _ _ hab, ih]

theorem forall₂_filter {α β : Type} {R : α → β → Prop} {p : α → Bool} {q : β → Bool} {as : List α}
    {bs : List β} (h : List.Forall₂ R as bs) (hpq : ∀ a b, R a b → q b = p a) :
    List.Forall₂ R (as.filter p) (bs.filter q) := by
  refine List.rel_filter (fun a b hab => ?_) h
  show p a = true ↔ q b = true
  rw [hpq a b hab]

theorem forall₂_filterMap {α β : Type} (f : α → Option β) (as : List α) :
    List.Forall₂ (fun a b => f a = some b) (as.filter fun a => (f a).isSome) (as.filterMap f) := by
  induction as with
  | nil => exact .nil
  | cons a as ih =>
    cases h : f a with
    | none => rwa [List.filter_cons_of_neg (by simp [h]), List.filterMap_cons_none h]
    | some b =>
      rw [List.filter_cons_of_pos (by simp [h]), List.filterMap_cons_some h]
      exact .cons h ih

theorem flatMap_filter_of_nil {α β : Type} {p : α → Bool} {f : α → List β} {as : List α}
    (h : ∀ a, ¬ p a → f a = []) : (as.filter p).flatMap f = as.flatMap f := by
  induction as with
  | nil => rfl
  | cons a as ih =>
    by_cases hp : p a
    · rw [List.filter_cons_of_pos hp, List.flatMap_cons, List.flatMap_cons, ih]
    · rw [List.filter_cons_of_neg hp, List.flatMap_cons, h a hp, ih]; rfl

/-- Sub-tiers without the supply that is gone, as far as anything is left of them. -/
def thinTargets (σ : SlotMap) (targets : List (List Nat)) : List (List Nat) :=
  (targets.map fun peers => peers.filterMap (σ .supply)).filter (!·.isEmpty)

def Member.thin (σ : SlotMap) (m : Member) : Option Member :=
  (σ .demand m.demand).map fun d => ⟨d, thinTargets σ m.targets⟩

def TierPlan.thin (σ : SlotMap) (tier : TierPlan) : TierPlan := tier.filterMap (·.thin σ)

/-- The index of a member and the one it has after thinning. -/
def TierPlan.Moves (σ : SlotMap) (tier : TierPlan) (i i' : Nat) : Prop :=
  ∃ m m', (m, i) ∈ tier.zipIdx ∧ (m', i') ∈ (tier.thin σ).zipIdx ∧ m.thin σ = some m'

def Edge.isKept (σ : SlotMap) (e : Edge) : Bool :=
  (σ .demand e.demand).isSome && (σ .supply e.supply).isSome

/-- An edge and what it is after thinning. -/
structure Edge.Thins (σ : SlotMap) (tier : TierPlan) (e e' : Edge) : Prop where
  member : tier.Moves σ e.member e'.member
  ends : ∀ side, σ side (e.ends.get side) = some (e'.ends.get side)
  ahead : e'.ahead = e.ahead.filterMap (σ .supply)

def Holder.isKept (σ : SlotMap) (h : Holder) : Bool := (σ h.side h.slot).isSome

inductive Holder.Thins (σ : SlotMap) (tier : TierPlan) : Holder → Holder → Prop
  | member {i i' d d' : Nat} (hi : tier.Moves σ i i') (hd : σ .demand d = some d') :
    Thins σ tier (.member i d) (.member i' d')
  | supply {s s' : Nat} (hs : σ .supply s = some s') : Thins σ tier (.supply s) (.supply s')

section
variable {σ : SlotMap} {small big : Ledger} {tier : TierPlan} {m m' : Member}

theorem Member.thin_eq_some : m.thin σ = some m' ↔
    σ .demand m.demand = some m'.demand ∧ m'.targets = thinTargets σ m.targets := by
  rw [thin, Option.map_eq_some_iff]
  constructor
  · rintro ⟨d, hd, rfl⟩; exact ⟨hd, rfl⟩
  · rintro ⟨hd, ht⟩; exact ⟨_, hd, by rw [← ht]⟩

theorem Member.thin_eq_none : m.thin σ = none ↔ σ .demand m.demand = none :=
  Option.map_eq_none_iff

theorem Ledger.Thins.lt_size (h : small.Thins σ big) {side : Side} {i j : Nat}
    (hi : i < big.size side) (hj : σ side i = some j) : j < small.size side := by
  rw [← List.mem_range, ← h.slots side]
  exact List.mem_filterMap.2 ⟨i, List.mem_range.2 hi, hj⟩

theorem Ledger.Thins.nodup_filterMap (h : small.Thins σ big) (side : Side) {is : List Nat}
    (hn : is.Nodup) : (is.filterMap (σ side)).Nodup :=
  hn.filterMap fun _ _ _ hi hi' => h.inj hi hi'

theorem TierPlan.map_demand_thin (σ : SlotMap) (tier : TierPlan) :
    (tier.thin σ).map (·.demand) = (tier.map (·.demand)).filterMap (σ .demand) := by
  rw [thin, List.map_filterMap, List.filterMap_map]
  refine List.filterMap_congr fun m _ => ?_
  show ((σ .demand m.demand).map _).map _ = _
  rw [Option.map_map]
  exact Option.map_id'

theorem TierPlan.Fits.thin (ht : tier.Fits big) (h : small.Thins σ big) :
    (tier.thin σ).Fits small := by
  have hpeers : ∀ m' ∈ tier.thin σ, ∀ peers' ∈ m'.targets,
      ∃ m ∈ tier, ∃ peers ∈ m.targets, peers' = peers.filterMap (σ .supply) := by
    intro m' hm' peers' hp'
    obtain ⟨m, hm, hthin⟩ := List.mem_filterMap.1 hm'
    rw [(Member.thin_eq_some.1 hthin).2, thinTargets, List.mem_filter, List.mem_map] at hp'
    obtain ⟨⟨peers, hp, rfl⟩, -⟩ := hp'
    exact ⟨m, hm, peers, hp, rfl⟩
  refine ⟨fun m' hm' => ?_, fun m' hm' peers' hp' s' hs' => ?_, ?_, fun m' hm' peers' hp' => ?_⟩
  · obtain ⟨m, hm, hthin⟩ := List.mem_filterMap.1 hm'
    exact h.lt_size (ht.demand_lt m hm) (Member.thin_eq_some.1 hthin).1
  · obtain ⟨m, hm, peers, hp, rfl⟩ := hpeers m' hm' peers' hp'
    obtain ⟨s, hs, hσ⟩ := List.mem_filterMap.1 hs'
    exact h.lt_size (ht.supply_lt m hm peers hp s hs) hσ
  · rw [map_demand_thin]
    exact h.nodup_filterMap .demand ht.nodup_demand
  · obtain ⟨m, hm, peers, hp, rfl⟩ := hpeers m' hm' peers' hp'
    exact h.nodup_filterMap .supply (ht.nodup_peers m hm peers hp)

/-- Two members are the same before thinning if they are after it. -/
theorem TierPlan.Fits.moves_iff (ht : tier.Fits big) (h : small.Thins σ big) {i i' k k' : Nat}
    (hi : tier.Moves σ i i') (hk : tier.Moves σ k k') : k' = i' ↔ k = i := by
  obtain ⟨m, m', hm, hm', hthin⟩ := hi
  obtain ⟨n, n', hn, hn', hthin'⟩ := hk
  have hd := (Member.thin_eq_some.1 hthin).1
  have hd' := (Member.thin_eq_some.1 hthin').1
  constructor
  · rintro rfl
    have : m' = n' := Option.some.inj
      ((List.mk_mem_zipIdx_iff_getElem?.1 hm').symm.trans (List.mk_mem_zipIdx_iff_getElem?.1 hn'))
    subst this
    exact ht.index_eq hn hm (h.inj hd' hd)
  · rintro rfl
    have : m = n := Option.some.inj
      ((List.mk_mem_zipIdx_iff_getElem?.1 hm).symm.trans (List.mk_mem_zipIdx_iff_getElem?.1 hn))
    subst this
    exact (ht.thin h).index_eq hn' hm' (Option.some.inj (hd'.symm.trans hd))

/-! ### Members, edges and holders -/

theorem zipIdx_thin (σ : SlotMap) (tier : TierPlan) (k k' : Nat) :
    List.Forall₂ (fun a a' => a.1.thin σ = some a'.1)
      ((tier.zipIdx k).filter fun a => (σ .demand a.1.demand).isSome)
      ((tier.thin σ).zipIdx k') := by
  induction tier generalizing k k' with
  | nil => exact .nil
  | cons m tier ih =>
    rw [List.zipIdx_cons, TierPlan.thin]
    cases hd : σ .demand m.demand with
    | none =>
      rw [List.filter_cons_of_neg (by simp [hd]),
        List.filterMap_cons_none (Member.thin_eq_none.2 hd)]
      exact ih _ _
    | some d =>
      have hthin : m.thin σ = some ⟨d, thinTargets σ m.targets⟩ := by rw [Member.thin, hd]; rfl
      rw [List.filter_cons_of_pos (by simp [hd]), List.filterMap_cons_some hthin,
        List.zipIdx_cons]
      exact .cons hthin (ih _ _)

theorem edgesFrom_filter (i d : Nat) (ahead : List Nat) (targets : List (List Nat)) :
    edgesFrom i d ahead (targets.filter (!·.isEmpty)) = edgesFrom i d ahead targets := by
  induction targets generalizing ahead with
  | nil => rfl
  | cons peers rest ih =>
    cases peers with
    | nil => rw [List.filter_cons_of_neg (by simp), edgesFrom, ih]; simp
    | cons s peers => rw [List.filter_cons_of_pos (by simp), edgesFrom, ih, edgesFrom]

theorem edgesFrom_thin {i i' d d' : Nat} (hi : tier.Moves σ i i') (hd : σ .demand d = some d')
    (ahead : List Nat) (targets : List (List Nat)) :
    List.Forall₂ (Edge.Thins σ tier) ((edgesFrom i d ahead targets).filter (·.isKept σ))
      (edgesFrom i' d' (ahead.filterMap (σ .supply)) (thinTargets σ targets)) := by
  rw [thinTargets, edgesFrom_filter]
  induction targets generalizing ahead with
  | nil => exact .nil
  | cons peers rest ih =>
    rw [edgesFrom, List.map_cons, edgesFrom, List.filter_append, ← List.filterMap_append]
    refine List.rel_append ?_ (ih _)
    rw [List.filter_map, List.forall₂_map_left_iff, List.forall₂_map_right_iff]
    have hkept : peers.filter (Edge.isKept σ ∘ fun s => ⟨i, d, s, ahead⟩) =
        peers.filter fun s => (σ .supply s).isSome :=
      List.filter_congr fun s _ => by simp [Edge.isKept, hd]
    rw [hkept]
    exact (forall₂_filterMap _ peers).imp fun s s' hs =>
      ⟨hi, Side.forall_iff.2 ⟨hd, hs⟩, rfl⟩

/-- The edges between slots that stay, in the same order. -/
theorem edges_thin (σ : SlotMap) (tier : TierPlan) :
    List.Forall₂ (Edge.Thins σ tier) (tier.edges.filter (·.isKept σ)) (tier.thin σ).edges := by
  have hkept : tier.edges.filter (·.isKept σ) =
      (tier.zipIdx.filter fun a => (σ .demand a.1.demand).isSome).flatMap fun a =>
        (edgesFrom a.2 a.1.demand [] a.1.targets).filter (·.isKept σ) := by
    rw [flatMap_filter_of_nil, TierPlan.edges, List.filter_flatMap]
    intro a ha
    refine List.filter_eq_nil_iff.2 fun e he => ?_
    obtain ⟨_, _, _, -, s, -, rfl⟩ := mem_edgesFrom.1 he
    simp only [Option.not_isSome_iff_eq_none] at ha
    simp [Edge.isKept, ha]
  rw [hkept]
  refine List.rel_flatMap (forall₂_mem (zipIdx_thin σ tier 0 0)) ?_
  rintro ⟨m, i⟩ ⟨m', i'⟩ ⟨⟨hm, hm'⟩, hthin⟩
  obtain ⟨hd, ht⟩ := Member.thin_eq_some.1 hthin
  have hi : tier.Moves σ i i' := ⟨m, m', (List.mem_filter.1 hm).1, hm', hthin⟩
  show List.Forall₂ _ _ (edgesFrom i' m'.demand [] m'.targets)
  rw [ht]
  exact edgesFrom_thin hi hd [] m.targets

theorem holders_thin (h : small.Thins σ big) (tier : TierPlan) :
    List.Forall₂ (Holder.Thins σ tier) ((tier.holders big).filter (·.isKept σ))
      ((tier.thin σ).holders small) := by
  rw [TierPlan.holders, TierPlan.holders, List.filter_append, ← h.slots .supply]
  refine List.rel_append ?_ ?_
  · rw [List.filter_map, List.forall₂_map_left_iff, List.forall₂_map_right_iff]
    refine (forall₂_mem (zipIdx_thin σ tier 0 0)).imp ?_
    rintro ⟨m, i⟩ ⟨m', i'⟩ ⟨⟨hm, hm'⟩, hthin⟩
    exact .member ⟨m, m', (List.mem_filter.1 hm).1, hm', hthin⟩ (Member.thin_eq_some.1 hthin).1
  · rw [List.filter_map, List.forall₂_map_left_iff, List.forall₂_map_right_iff]
    exact (forall₂_filterMap (σ .supply) _).imp fun s s' hs => .supply hs

/-! ### What edges and holders have in common with what they become -/

namespace Edge.Thins
variable {e e' : Edge}

theorem isAt_eq (he : Edge.Thins σ tier e e') (h : small.Thins σ big) {side : Side} {i j : Nat}
    (hi : σ side i = some j) : e'.isAt side j = e.isAt side i := by
  rw [Bool.eq_iff_iff, Edge.isAt_iff, Edge.isAt_iff]
  constructor
  · intro hj; exact h.inj (hj ▸ he.ends side) hi
  · intro hj
    have := he.ends side
    rw [hj, hi] at this
    exact (Option.some.inj this).symm

/-- Ends and everything ahead that stays are as live as before; what is gone was not live. -/
theorem isActive_eq (he : Edge.Thins σ tier e e') (h : small.Thins σ big) :
    e'.isActive small = e.isActive big := by
  rw [Bool.eq_iff_iff, Edge.isActive_iff, Edge.isActive_iff, he.ahead]
  refine and_congr (forall_congr' fun side => by rw [h.isLive_eq (he.ends side)])
    ⟨fun hno s hs hlive => ?_, fun hno s' hs' hlive => ?_⟩
  · cases hσ : σ .supply s with
    | none => exact h.not_isLive hσ hlive
    | some s' =>
      refine hno s' (List.mem_filterMap.2 ⟨s, hs, hσ⟩) ?_
      rw [h.isLive_eq hσ]; exact hlive
  · obtain ⟨s, hs, hσ⟩ := List.mem_filterMap.1 hs'
    rw [h.isLive_eq hσ] at hlive
    exact hno s hs hlive

end Edge.Thins

theorem Edge.isSome_of_isActive (h : small.Thins σ big) {e : Edge} (ha : e.isActive big)
    (side : Side) : (σ side (e.ends.get side)).isSome := by
  rw [Option.isSome_iff_ne_none]
  exact fun hσ => h.not_isLive hσ ((Edge.isActive_iff.1 ha).1 side)

theorem Edge.isKept_of_isActive (h : small.Thins σ big) {e : Edge} (ha : e.isActive big) :
    e.isKept σ :=
  Bool.and_eq_true_iff.2 ⟨isSome_of_isActive h ha .demand, isSome_of_isActive h ha .supply⟩

namespace Holder.Thins
variable {d d' : Holder} {e e' : Edge}

theorem remaining_eq (hd : Holder.Thins σ tier d d') (h : small.Thins σ big) :
    d'.remaining small = d.remaining big := by
  cases hd with
  | member _ hd => exact h.remaining hd
  | supply hs => exact h.remaining hs

theorem owns_eq (hd : Holder.Thins σ tier d d') (he : Edge.Thins σ tier e e') (ht : tier.Fits big)
    (h : small.Thins σ big) : d'.owns e' = d.owns e := by
  cases hd with
  | member hi hd =>
    have hend : (e'.demand == _) = (e.demand == _) := he.isAt_eq h hd
    have hidx : (e'.member == _) = (e.member == _) :=
      Bool.eq_iff_iff.2 (by simpa using ht.moves_iff h hi he.member)
    rw [owns, owns, hend, hidx]
  | supply hs => exact he.isAt_eq h hs

end Holder.Thins

end
end FairShare
