import FairShare.Proofs.Tier.Unitwise

/-!
# Tiers without indices

An edge carries the index of its member, and a member owns the edges with its index. In a tier that
fits the ledger no two members share a demand slot, so the slot says as much as the index. Filling
unit by unit therefore comes to the same with all indices set to zero (`TierPlan.fill_plain`), where
the edges of a member are the same in every tier that it is in.
-/

namespace FairShare

def Edge.plain (e : Edge) : Edge := { e with member := 0 }

def Holder.plain : Holder → Holder
  | .member _ d => .member 0 d
  | .supply s => .supply s

/-- The edges of a tier, member by member, without indices. -/
def TierPlan.plainEdges (tier : TierPlan) : List Edge :=
  tier.flatMap fun m => edgesFrom 0 m.demand [] m.targets

def TierPlan.plainHolders (tier : TierPlan) (l : Ledger) : List Holder :=
  tier.map (fun m => .member 0 m.demand) ++ (List.range (l.size .supply)).map .supply

theorem map_plain_edgesFrom (i d : Nat) (ahead : List Nat) (targets : List (List Nat)) :
    (edgesFrom i d ahead targets).map Edge.plain = edgesFrom 0 d ahead targets := by
  induction targets generalizing ahead with
  | nil => rfl
  | cons peers rest ih =>
    rw [edgesFrom, edgesFrom, List.map_append, List.map_map, ih]
    rfl

namespace TierPlan
variable {tier : TierPlan} {l : Ledger}

theorem map_plain_edges (tier : TierPlan) : tier.edges.map Edge.plain = tier.plainEdges := by
  rw [edges, List.map_flatMap, plainEdges]
  simp only [map_plain_edgesFrom]
  rw [← List.zipIdx_map_fst 0 tier, List.flatMap_map, List.zipIdx_map_fst]

theorem map_plain_holders (tier : TierPlan) (l : Ledger) :
    (tier.holders l).map Holder.plain = tier.plainHolders l := by
  have hmembers : tier.map (fun m => Holder.member 0 m.demand) =
      (tier.zipIdx.map Prod.fst).map fun m => .member 0 m.demand := by
    rw [List.zipIdx_map_fst]
  rw [holders, plainHolders, List.map_append, List.map_map, List.map_map, hmembers, List.map_map]
  rfl

theorem pairs_plain (l : Ledger) (edges : List Edge) (flows : List Volume) :
    pairs l (edges.map Edge.plain) flows = pairs l edges flows := by
  rw [pairs, pairs, List.zip_map_left, List.filterMap_map]
  rfl

theorem pairs_resolve_plain (tier : TierPlan) (l : Ledger) :
    (tier.resolve l).pairs = pairs l tier.plainEdges (tier.fill l).2.flows := by
  rw [pairs_resolve, ← map_plain_edges, pairs_plain]

theorem Fits.plain_owns (ht : tier.Fits l) {h : Holder} (hh : h ∈ tier.holders l) {e : Edge}
    (he : e ∈ tier.edges) : h.plain.owns e.plain = h.owns e := by
  rw [Bool.eq_iff_iff, ht.owns_iff hh he]
  cases h with
  | member i d => simp [Holder.plain, Holder.owns, Edge.plain, Holder.side, Holder.slot, Edge.ends,
      BySide.get]
  | supply s => simp [Holder.plain, Holder.owns, Edge.plain, Holder.side, Holder.slot, Edge.ends,
      BySide.get]

theorem Fits.plain_inj (ht : tier.Fits l) {e e' : Edge} (he : e ∈ tier.edges)
    (he' : e' ∈ tier.edges) (h : e.plain = e'.plain) : e = e' := by
  obtain ⟨m, i, hm, hi, hd, -⟩ := exists_of_mem_edges he
  obtain ⟨m', i', hm', hi', hd', -⟩ := exists_of_mem_edges he'
  obtain ⟨member, demand, supply, ahead⟩ := e
  obtain ⟨member', demand', supply', ahead'⟩ := e'
  rw [Edge.plain, Edge.plain, Edge.mk.injEq] at h
  obtain ⟨-, rfl, rfl, rfl⟩ := h
  have hindex : i = i' := ht.index_eq hm hm' (hd.symm.trans hd')
  rw [show member = member' from hi.trans (hindex.trans hi'.symm)]

end TierPlan

namespace Filling
variable {tier : TierPlan} {l l' : Ledger} {f : Filling}

theorem activeEdges_plain (edges : List Edge) (l : Ledger) :
    Round.activeEdges (edges.map Edge.plain) l = (Round.activeEdges edges l).map Edge.plain := by
  rw [Round.activeEdges, Round.activeEdges, List.filter_map]
  rfl

theorem degree_plain (ht : tier.Fits l) {h : Holder} (hh : h ∈ tier.holders l) (l' : Ledger) :
    h.plain.degree (Round.activeEdges tier.plainEdges l') =
      h.degree (Round.activeEdges tier.edges l') := by
  rw [← TierPlan.map_plain_edges, activeEdges_plain, Holder.degree, Holder.degree, List.countP_map]
  refine List.countP_congr fun e he => ?_
  rw [Function.comp_apply, ht.plain_owns hh (Round.mem_activeEdges.1 he).1]

theorem remaining_plain (l : Ledger) (h : Holder) : h.plain.remaining l = h.remaining l := by
  cases h <;> rfl

theorem find?_congr {α : Type} {p q : α → Bool} {as : List α} (h : ∀ a ∈ as, p a = q a) :
    as.find? p = as.find? q := by
  rw [← List.head?_filter, ← List.head?_filter, List.filter_congr h]

theorem recipients_plain (ht : tier.Fits l) (l' : Ledger) :
    recipients tier.plainEdges (tier.plainHolders l) l' =
      (recipients tier.edges (tier.holders l) l').map Edge.plain := by
  have hfind : ((tier.plainHolders l).find? fun h =>
      (h.remaining l').units < h.degree (Round.activeEdges tier.plainEdges l')) =
      ((tier.holders l).find? fun h =>
        (h.remaining l').units < h.degree (Round.activeEdges tier.edges l')).map Holder.plain := by
    rw [← TierPlan.map_plain_holders, List.find?_map]
    congr 1
    refine find?_congr fun h hh => ?_
    rw [Function.comp_apply, degree_plain ht hh, remaining_plain]
  rw [recipients, recipients, hfind]
  cases hshort : (tier.holders l).find? fun h =>
      (h.remaining l').units < h.degree (Round.activeEdges tier.edges l') with
  | none => rw [Option.map_none, ← TierPlan.map_plain_edges, activeEdges_plain]
  | some h =>
    have hh := List.mem_of_find?_eq_some hshort
    simp only [Option.map_some]
    rw [← TierPlan.map_plain_edges, activeEdges_plain, List.filter_map, remaining_plain,
      List.map_take]
    congr 2
    refine List.filter_congr fun e he => ?_
    rw [Function.comp_apply, ht.plain_owns hh (Round.mem_activeEdges.1 he).1]

theorem transferAll_plain (l : Ledger) (edges : List Edge) (vs : List Volume) :
    l.transferAll ((edges.map Edge.plain).zip vs) = l.transferAll (edges.zip vs) := by
  rw [Ledger.transferAll, Ledger.transferAll, List.zip_map_left, List.foldl_map]
  rfl

theorem serve_plain (ht : tier.Fits l) (f : Filling) {served : List Edge}
    (hs : ∀ e ∈ served, e ∈ tier.edges) :
    f.serve tier.plainEdges (served.map Edge.plain) = f.serve tier.edges served := by
  have hunits : (tier.edges.map Edge.plain).map (fun e =>
      if e ∈ served.map Edge.plain then Volume.one else .zero) =
      tier.edges.map fun e => if e ∈ served then Volume.one else .zero := by
    rw [List.map_map]
    refine List.map_congr_left fun e he => ?_
    have hmem : e.plain ∈ served.map Edge.plain ↔ e ∈ served := by
      constructor
      · intro h
        obtain ⟨e', he', heq⟩ := List.mem_map.1 h
        rwa [← ht.plain_inj (hs e' he') he heq]
      · exact List.mem_map_of_mem
    simp only [Function.comp_apply, hmem]
  rw [serve, serve, ← TierPlan.map_plain_edges, hunits, transferAll_plain]

theorem serveAll_plain (ht : tier.Fits l) (f : Filling) :
    f.serveAll tier.plainEdges (tier.plainHolders l) = f.serveAll tier.edges (tier.holders l) := by
  have hactive : ∀ l', Round.activeEdges tier.plainEdges l' =
      (Round.activeEdges tier.edges l').map Edge.plain := fun l' => by
    rw [← TierPlan.map_plain_edges, activeEdges_plain]
  fun_induction serveAll tier.edges (tier.holders l) f with
  | case1 f h => rw [serveAll_of_nil (by rw [hactive, h, List.map_nil])]
  | case2 f h ih =>
    have hne : Round.activeEdges tier.plainEdges f.ledger ≠ [] := by
      rwa [hactive, ne_eq, List.map_eq_nil_iff]
    rw [serveAll_of_ne_nil hne, recipients_plain ht,
      serve_plain ht f fun e he => (isActive_of_mem_recipients he).1, ih]

end Filling

/-- A tier is filled as it is by units without indices. -/
theorem TierPlan.fill_plain {tier : TierPlan} {l : Ledger} (ht : tier.Fits l) :
    (tier.fill l).2 =
      (Filling.start tier.plainEdges l).serveAll tier.plainEdges (tier.plainHolders l) := by
  have hstart : Filling.start tier.plainEdges l = .start tier.edges l := by
    rw [Filling.start, Filling.start, ← map_plain_edges, List.map_map]
    rfl
  rw [hstart, Filling.serveAll_plain ht,
    Filling.serveAll_eq_run ht (Filling.balanced_start tier.edges l), fill]

end FairShare
