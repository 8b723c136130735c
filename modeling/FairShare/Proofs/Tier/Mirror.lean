import FairShare.Proofs.Ledger.Mirror
import FairShare.Proofs.Tier.Unitwise
import Mathlib.Data.List.Nodup

/-!
# Filling a tier on another ledger

A tier is filled on a ledger that mirrors its own as it is on its own: unit by unit the same edges are
served, under the names that their slots have there (`Filling.recipients_rename`). Holders that the
tier does not name own no active edge, so they are never short; of the others the first one that is
short is the same, since members are taken in the order of the tier and supply slots keep theirs
(`find?_short_rename`). So the matches are equal, and the ledgers mirror each other to the end
(`TierPlan.resolve_rename`).
-/

namespace FairShare

def Edge.rename (ρ : Renaming) (e : Edge) : Edge :=
  { e with demand := ρ .demand e.demand, supply := ρ .supply e.supply,
           ahead := e.ahead.map (ρ .supply) }

def Holder.rename (ρ : Renaming) : Holder → Holder
  | .member i d => .member i (ρ .demand d)
  | .supply s => .supply (ρ .supply s)

def Member.rename (ρ : Renaming) (m : Member) : Member :=
  ⟨ρ .demand m.demand, m.targets.map fun peers => peers.map (ρ .supply)⟩

def TierPlan.rename (ρ : Renaming) (tier : TierPlan) : TierPlan := tier.map (Member.rename ρ)

section
variable {ρ : Renaming} {wide narrow : Ledger}

theorem edgesFrom_rename (ρ : Renaming) (i d : Nat) (ahead : List Nat) (targets : List (List Nat)) :
    edgesFrom i (ρ .demand d) (ahead.map (ρ .supply)) (targets.map fun peers => peers.map (ρ .supply)) =
      (edgesFrom i d ahead targets).map (Edge.rename ρ) := by
  induction targets generalizing ahead with
  | nil => rfl
  | cons peers rest ih =>
    rw [List.map_cons, edgesFrom, edgesFrom, ← List.map_append, ih, List.map_append, List.map_map,
      List.map_map]
    rfl

theorem TierPlan.edges_rename (ρ : Renaming) (tier : TierPlan) :
    (tier.rename ρ).edges = tier.edges.map (Edge.rename ρ) := by
  rw [edges, rename, List.zipIdx_map, List.flatMap_map, edges, List.map_flatMap]
  exact List.flatMap_congr fun m _ => edgesFrom_rename ρ m.2 m.1.demand [] m.1.targets

theorem Edge.ends_rename (ρ : Renaming) (e : Edge) (side : Side) :
    (e.rename ρ).ends.get side = ρ side (e.ends.get side) := by cases side <;> rfl

namespace Ledger.Mirrors

theorem rename_injective (h : wide.Mirrors ρ narrow) : Function.Injective (Edge.rename ρ) := by
  rintro ⟨member, demand, supply, ahead⟩ ⟨member', demand', supply', ahead'⟩ heq
  obtain ⟨hm, hd, hs, ha⟩ := Edge.mk.inj heq
  obtain rfl : member = member' := hm
  obtain rfl : demand = demand' := h.injective .demand hd
  obtain rfl : supply = supply' := h.injective .supply hs
  obtain rfl : ahead = ahead' := List.map_injective_iff.2 (h.injective .supply) ha
  rfl

theorem isAt_rename (h : wide.Mirrors ρ narrow) (e : Edge) (side : Side) (i : Nat) :
    (e.rename ρ).isAt side (ρ side i) = e.isAt side i := by
  rw [Bool.eq_iff_iff, Edge.isAt_iff, Edge.isAt_iff, Edge.ends_rename, (h.injective side).eq_iff]

theorem isActive_rename (h : wide.Mirrors ρ narrow) (e : Edge) :
    (e.rename ρ).isActive wide = e.isActive narrow := by
  rw [Bool.eq_iff_iff, Edge.isActive_iff, Edge.isActive_iff]
  refine and_congr (forall_congr' fun side => by rw [Edge.ends_rename, h.isLive_eq]) ?_
  rw [Edge.rename, List.forall_mem_map]
  exact forall₂_congr fun s _ => by rw [h.isLive_eq]

theorem owns_rename (h : wide.Mirrors ρ narrow) (d : Holder) (e : Edge) :
    (d.rename ρ).owns (e.rename ρ) = d.owns e := by
  cases d with
  | member i d => exact congrArg (e.member == i && ·) (h.isAt_rename e .demand d)
  | supply s => exact h.isAt_rename e .supply s

theorem remaining_rename (h : wide.Mirrors ρ narrow) (d : Holder) :
    (d.rename ρ).remaining wide = d.remaining narrow := by
  cases d with
  | member i d => exact h.remaining .demand d
  | supply s => exact h.remaining .supply s

theorem activeEdges_rename (h : wide.Mirrors ρ narrow) (edges : List Edge) :
    Round.activeEdges (edges.map (Edge.rename ρ)) wide =
      (Round.activeEdges edges narrow).map (Edge.rename ρ) := by
  rw [Round.activeEdges, Round.activeEdges, List.filter_map]
  exact congrArg _ (List.filter_congr fun e _ => h.isActive_rename e)

theorem degree_rename (h : wide.Mirrors ρ narrow) (d : Holder) (edges : List Edge) :
    (d.rename ρ).degree (edges.map (Edge.rename ρ)) = d.degree edges := by
  rw [Holder.degree, Holder.degree, List.countP_map]
  exact List.countP_congr fun e _ => by rw [Function.comp_apply, h.owns_rename]

/-- What flows along renamed edges flows at renamed slots. -/
theorem transferAll (h : wide.Mirrors ρ narrow) (edges : List Edge) (vs : List Volume) :
    (wide.transferAll ((edges.map (Edge.rename ρ)).zip vs)).Mirrors ρ
      (narrow.transferAll (edges.zip vs)) where
  injective := h.injective
  strictMono := h.strictMono
  lt_size {side i} hi := by
    rw [size_congr (ids_transferAll narrow _ side)] at hi
    rw [size_congr (ids_transferAll wide _ side)]
    exact h.lt_size hi
  id side i := by
    rw [id_congr (ids_transferAll wide _ side), id_congr (ids_transferAll narrow _ side)]
    exact h.id side i
  remaining side i := by
    have hunits : unitsAlong (·.isAt side (ρ side i)) ((edges.map (Edge.rename ρ)).zip vs) =
        unitsAlong (·.isAt side i) (edges.zip vs) := by
      rw [unitsAlong, List.zip_map_left, List.filter_map, List.map_map, unitsAlong]
      refine congrArg unitsIn (congrArg (List.map _) (List.filter_congr fun g _ => ?_))
      exact h.isAt_rename g.1 side i
    apply Volume.ext
    rw [units_remaining_transferAll, units_remaining_transferAll, hunits, h.remaining]

end Ledger.Mirrors

/-! ### Who is short -/

/-- The first number that passes a test which none but the values of `f` pass. -/
theorem find?_range_of_strictMono {f : Nat → Nat} (hf : StrictMono f) {n n' : Nat}
    (hlt : ∀ i < n, f i < n') {p : Nat → Bool} (hp : ∀ j < n', p j → ∃ i < n, f i = j) :
    (List.range n').find? p = ((List.range n).find? (p ∘ f)).map f := by
  cases hfind : (List.range n).find? (p ∘ f) with
  | none =>
    refine List.find?_eq_none.2 fun j hj hpj => ?_
    obtain ⟨i, hi, rfl⟩ := hp j (List.mem_range.1 hj) hpj
    exact List.find?_eq_none.1 hfind i (List.mem_range.2 hi) hpj
  | some i =>
    obtain ⟨hpi, hi, hfirst⟩ := List.find?_range_eq_some.1 hfind
    have hi' := hlt i (List.mem_range.1 hi)
    refine List.find?_range_eq_some.2 ⟨hpi, List.mem_range.2 hi', fun j hj => ?_⟩
    rw [Bool.not_eq_true', Bool.eq_false_iff]
    intro hpj
    obtain ⟨k, -, rfl⟩ := hp j (Nat.lt_trans hj hi') hpj
    have hnot := hfirst k (hf.lt_iff_lt.1 hj)
    rw [Function.comp_apply, hpj] at hnot
    cases hnot

variable {tier : TierPlan} {l l' : Ledger}

/-- Holders are looked through in the same order, if none passes that the tier cannot name. -/
theorem find?_holders_rename (h : l'.Mirrors ρ l) (tier : TierPlan) {p p' : Holder → Bool}
    (hp : p' ∘ Holder.rename ρ = p)
    (hown : ∀ j, p' (.supply j) → ∃ s < l.size .supply, ρ .supply s = j) :
    ((tier.rename ρ).holders l').find? p' = ((tier.holders l).find? p).map (Holder.rename ρ) := by
  have hmembers : (tier.rename ρ).zipIdx.map (fun m => Holder.member m.2 m.1.demand) =
      (tier.zipIdx.map fun m => .member m.2 m.1.demand).map (Holder.rename ρ) := by
    rw [TierPlan.rename, List.zipIdx_map, List.map_map, List.map_map]
    rfl
  have hsupply : ((List.range (l'.size .supply)).map .supply).find? p' =
      (((List.range (l.size .supply)).map .supply).find? p).map (Holder.rename ρ) := by
    have hslots : (List.range (l'.size .supply)).find? (p' ∘ .supply) = _ :=
      find?_range_of_strictMono h.strictMono (fun _ => h.lt_size) fun j _ => hown j
    rw [List.find?_map, List.find?_map, ← hp, Option.map_map, hslots, Option.map_map]
    rfl
  rw [TierPlan.holders, TierPlan.holders, List.find?_append, List.find?_append, hmembers, hsupply,
    List.find?_map, hp, Option.map_or]

/-- The first holder that is short is the same. What the tier does not name owns no edge. -/
theorem find?_short_rename (ht : tier.Fits l) (h₀ : l'.Mirrors ρ l) (h : wide.Mirrors ρ narrow) :
    (((tier.rename ρ).holders l').find? fun d => (d.remaining wide).units <
      d.degree (Round.activeEdges (tier.rename ρ).edges wide)) =
    ((tier.holders l).find? fun d => (d.remaining narrow).units <
      d.degree (Round.activeEdges tier.edges narrow)).map (Holder.rename ρ) := by
  rw [TierPlan.edges_rename, h.activeEdges_rename]
  refine find?_holders_rename h₀ tier (funext fun d => ?_) fun j hj => ?_
  · rw [Function.comp_apply, h.remaining_rename, h.degree_rename]
  · obtain ⟨_, hmem, ho⟩ := List.countP_pos_iff.1 (Nat.zero_lt_of_lt (of_decide_eq_true hj))
    obtain ⟨e, he, rfl⟩ := List.mem_map.1 hmem
    exact ⟨e.supply, ht.lt_size (Round.mem_activeEdges.1 he).1 .supply, Holder.ends_of_owns ho⟩

end

namespace Filling
variable {ρ : Renaming} {tier : TierPlan} {l l' wide narrow : Ledger} {f g : Filling}

theorem recipients_rename (ht : tier.Fits l) (h₀ : l'.Mirrors ρ l) (h : wide.Mirrors ρ narrow) :
    recipients (tier.rename ρ).edges ((tier.rename ρ).holders l') wide =
      (recipients tier.edges (tier.holders l) narrow).map (Edge.rename ρ) := by
  rw [recipients, recipients, find?_short_rename ht h₀ h]
  cases (tier.holders l).find? fun d =>
      (d.remaining narrow).units < d.degree (Round.activeEdges tier.edges narrow) with
  | none =>
    show Round.activeEdges _ _ = _
    rw [TierPlan.edges_rename, h.activeEdges_rename]
  | some d =>
    show ((Round.activeEdges _ _).filter _).take _ = List.map _ (List.take _ _)
    rw [TierPlan.edges_rename, h.activeEdges_rename, h.remaining_rename, List.filter_map,
      List.map_take]
    refine congrArg (fun es => List.take _ (List.map _ es)) (List.filter_congr fun e _ => ?_)
    exact h.owns_rename d e

/-- The ledgers mirror each other, and the same has flowed. -/
structure Mirrors (ρ : Renaming) (g f : Filling) : Prop where
  ledger : g.ledger.Mirrors ρ f.ledger
  flows : g.flows = f.flows

theorem Mirrors.serve (h : g.Mirrors ρ f) (edges served : List Edge) :
    (g.serve (edges.map (Edge.rename ρ)) (served.map (Edge.rename ρ))).Mirrors ρ
      (f.serve edges served) := by
  have hunits : (edges.map (Edge.rename ρ)).map (fun e =>
      if e ∈ served.map (Edge.rename ρ) then Volume.one else .zero) =
      edges.map fun e => if e ∈ served then Volume.one else .zero := by
    rw [List.map_map]
    refine List.map_congr_left fun e _ => ?_
    simp only [Function.comp_apply, List.mem_map_of_injective h.ledger.rename_injective]
  rw [Filling.serve, Filling.serve, hunits, h.flows]
  exact ⟨h.ledger.transferAll edges _, rfl⟩

theorem Mirrors.serveAll (ht : tier.Fits l) (h₀ : l'.Mirrors ρ l) (h : g.Mirrors ρ f) :
    (g.serveAll (tier.rename ρ).edges ((tier.rename ρ).holders l')).Mirrors ρ
      (f.serveAll tier.edges (tier.holders l)) := by
  have hactive : ∀ {g f : Filling}, g.Mirrors ρ f →
      Round.activeEdges (tier.rename ρ).edges g.ledger =
        (Round.activeEdges tier.edges f.ledger).map (Edge.rename ρ) := fun h => by
    rw [TierPlan.edges_rename, h.ledger.activeEdges_rename]
  fun_induction Filling.serveAll tier.edges (tier.holders l) f generalizing g with
  | case1 f hnil => rwa [serveAll_of_nil (by rw [hactive h, hnil, List.map_nil])]
  | case2 f hne ih =>
    have hne' : Round.activeEdges (tier.rename ρ).edges g.ledger ≠ [] := by
      rwa [hactive h, ne_eq, List.map_eq_nil_iff]
    rw [serveAll_of_ne_nil hne', recipients_rename ht h₀ h.ledger]
    refine ih ?_
    rw [TierPlan.edges_rename]
    exact h.serve tier.edges _

end Filling

namespace TierPlan
variable {ρ : Renaming} {tier : TierPlan} {l l' : Ledger}

theorem Fits.rename (ht : tier.Fits l) (h : l'.Mirrors ρ l) : (tier.rename ρ).Fits l' := by
  refine ⟨fun m' hm' => ?_, fun m' hm' peers' hp' s' hs' => ?_, ?_, fun m' hm' peers' hp' => ?_⟩
  · obtain ⟨m, hm, rfl⟩ := List.mem_map.1 hm'
    exact h.lt_size (ht.demand_lt m hm)
  · obtain ⟨m, hm, rfl⟩ := List.mem_map.1 hm'
    obtain ⟨peers, hp, rfl⟩ := List.mem_map.1 hp'
    obtain ⟨s, hs, rfl⟩ := List.mem_map.1 hs'
    exact h.lt_size (ht.supply_lt m hm peers hp s hs)
  · have hdemand : (tier.rename ρ).map (·.demand) = (tier.map (·.demand)).map (ρ .demand) := by
      rw [TierPlan.rename, List.map_map, List.map_map]
      rfl
    rw [hdemand]
    exact ht.nodup_demand.map (h.injective .demand)
  · obtain ⟨m, hm, rfl⟩ := List.mem_map.1 hm'
    obtain ⟨peers, hp, rfl⟩ := List.mem_map.1 hp'
    exact (ht.nodup_peers m hm peers hp).map (h.injective .supply)

/-- A tier makes the same matches on a ledger that mirrors its own, and leaves one that does. -/
theorem resolve_rename (ht : tier.Fits l) (h : l'.Mirrors ρ l) :
    ((tier.rename ρ).resolve l').pairs = (tier.resolve l).pairs ∧
      ((tier.rename ρ).resolve l').ledger.Mirrors ρ (tier.resolve l).ledger := by
  have hstart : (Filling.start (tier.rename ρ).edges l').Mirrors ρ (.start tier.edges l) := by
    refine ⟨h, ?_⟩
    rw [edges_rename]
    exact List.map_map
  have hfill : ((tier.rename ρ).fill l').2.Mirrors ρ (tier.fill l).2 := by
    rw [fill, fill, ← Filling.serveAll_eq_run ht (Filling.balanced_start ..),
      ← Filling.serveAll_eq_run (ht.rename h) (Filling.balanced_start ..)]
    exact hstart.serveAll ht h
  refine ⟨?_, hfill.ledger⟩
  rw [pairs_resolve, pairs_resolve, hfill.flows, edges_rename, pairs, pairs, List.zip_map_left,
    List.filterMap_map]
  refine List.filterMap_congr fun g _ => ?_
  rw [← h.id .demand g.1.demand, ← h.id .supply g.1.supply]
  rfl

end TierPlan
end FairShare
