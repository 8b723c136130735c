import FairShare.Proofs.Tier.Filling
import FairShare.Proofs.Tier.Thinning

/-!
# Filling a thinned tier

A tier and what thinning leaves of it go through the same rounds. What is gone holds nothing, so it
has no active edge; the holders that share in a round are the same, and so are their offers
(`next?_thin`). A round grants the edges that stay the same volumes (`grants_thin`), so ledgers and
flows keep corresponding (`Filling.Thins.apply`, `Filling.Thins.run`). In the end the matches are
equal, as along the other edges nothing has flowed (`TierPlan.resolve_thin`).
-/

namespace FairShare

def keptVolumes (σ : SlotMap) : List Edge → List Volume → List Volume
  | e :: es, v :: vs => if e.isKept σ then v :: keptVolumes σ es vs else keptVolumes σ es vs
  | _, _ => []

section
variable {σ : SlotMap} {edges edges' : List Edge} {vs : List Volume}

theorem keptVolumes_of_pos {e : Edge} (h : e.isKept σ) (es : List Edge) (v : Volume)
    (vs : List Volume) : keptVolumes σ (e :: es) (v :: vs) = v :: keptVolumes σ es vs := by
  rw [keptVolumes, if_pos h]

theorem keptVolumes_of_neg {e : Edge} (h : ¬ e.isKept σ) (es : List Edge) (v : Volume)
    (vs : List Volume) : keptVolumes σ (e :: es) (v :: vs) = keptVolumes σ es vs := by
  rw [keptVolumes, if_neg h]

theorem zip_keptVolumes (σ : SlotMap) (edges : List Edge) (vs : List Volume) :
    (edges.filter (·.isKept σ)).zip (keptVolumes σ edges vs) =
      (edges.zip vs).filter fun g => g.1.isKept σ := by
  induction edges generalizing vs with
  | nil => rfl
  | cons e edges ih =>
    cases vs with
    | nil => simp [keptVolumes]
    | cons v vs =>
      by_cases hk : e.isKept σ
      · rw [List.filter_cons_of_pos hk, keptVolumes_of_pos hk, List.zip_cons_cons, ih]
        exact (List.filter_cons_of_pos (a := (e, v)) hk).symm
      · rw [List.filter_cons_of_neg hk, keptVolumes_of_neg hk, ih]
        exact (List.filter_cons_of_neg (a := (e, v)) hk).symm

theorem keptVolumes_addSat (σ : SlotMap) (edges : List Edge) (vs ws : List Volume) :
    keptVolumes σ edges (List.zipWith Volume.addSat vs ws) =
      List.zipWith Volume.addSat (keptVolumes σ edges vs) (keptVolumes σ edges ws) := by
  induction edges generalizing vs ws with
  | nil => rfl
  | cons e edges ih =>
    cases vs with
    | nil => rfl
    | cons v vs =>
      cases ws with
      | nil => simp [keptVolumes]
      | cons w ws =>
        rw [List.zipWith_cons_cons]
        by_cases hk : e.isKept σ
        · rw [keptVolumes_of_pos hk, keptVolumes_of_pos hk, keptVolumes_of_pos hk, ih,
            List.zipWith_cons_cons]
        · rw [keptVolumes_of_neg hk, keptVolumes_of_neg hk, keptVolumes_of_neg hk, ih]

theorem keptVolumes_map (σ : SlotMap) (edges : List Edge) (f : Edge → Volume) :
    keptVolumes σ edges (edges.map f) = (edges.filter (·.isKept σ)).map f := by
  induction edges with
  | nil => rfl
  | cons e edges ih =>
    rw [List.map_cons]
    by_cases hk : e.isKept σ
    · rw [keptVolumes_of_pos hk, List.filter_cons_of_pos hk, List.map_cons, ih]
    · rw [keptVolumes_of_neg hk, List.filter_cons_of_neg hk, ih]

/-- Dealing passes over the edges that are gone. -/
theorem keptVolumes_deal {p : Edge → Bool} (hp : ∀ e, p e → e.isKept σ) (parts : List Volume)
    (edges : List Edge) : keptVolumes σ edges (Round.deal p parts edges) =
      Round.deal p parts (edges.filter (·.isKept σ)) := by
  induction edges generalizing parts with
  | nil => rfl
  | cons e edges ih =>
    by_cases hpe : p e
    · have hk := hp e hpe
      rw [Round.deal, if_pos hpe, keptVolumes_of_pos hk, List.filter_cons_of_pos hk, ih, Round.deal,
        if_pos hpe]
    · rw [Round.deal, if_neg hpe]
      by_cases hk : e.isKept σ
      · rw [keptVolumes_of_pos hk, List.filter_cons_of_pos hk, ih, Round.deal, if_neg hpe]
      · rw [keptVolumes_of_neg hk, List.filter_cons_of_neg hk, ih]

variable {R : Edge → Edge → Prop}

theorem deal_eq_of_forall₂ {p q : Edge → Bool} (h : List.Forall₂ R edges edges')
    (hpq : ∀ e e', R e e' → q e' = p e) (parts : List Volume) :
    Round.deal q parts edges' = Round.deal p parts edges := by
  induction h generalizing parts with
  | nil => rfl
  | cons he _ ih => rw [Round.deal, Round.deal, hpq _ _ he, ih, ih]

theorem forall₂_zip_same (h : List.Forall₂ R edges edges') (vs : List Volume) :
    List.Forall₂ (fun g g' => R g.1 g'.1 ∧ g'.2 = g.2) (edges.zip vs) (edges'.zip vs) := by
  induction h generalizing vs with
  | nil => exact .nil
  | cons he _ ih =>
    cases vs with
    | nil => exact .nil
    | cons v vs => exact .cons ⟨he, rfl⟩ (ih vs)

/-- Where nothing flows along the edges that are gone, flows add up to the same. -/
theorem unitsAlong_keptVolumes {p q : Edge → Bool}
    (hE : List.Forall₂ R (edges.filter (·.isKept σ)) edges') (hpq : ∀ e e', R e e' → q e' = p e)
    (hz : ∀ g ∈ edges.zip vs, ¬ g.1.isKept σ → g.2.units = 0) :
    unitsAlong q (edges'.zip (keptVolumes σ edges vs)) = unitsAlong p (edges.zip vs) := by
  have hzip := forall₂_zip_same hE (keptVolumes σ edges vs)
  rw [zip_keptVolumes] at hzip
  rw [← unitsAlong_filter hz, unitsAlong, unitsAlong]
  exact congrArg unitsIn (map_eq_of_forall₂ (forall₂_filter hzip fun _ _ hg => hpq _ _ hg.1)
    fun _ _ hg => hg.2)

end

/-! ### Rounds -/

inductive Round.Thins (σ : SlotMap) (tier : TierPlan) : Round → Round → Prop
  | uniform (n : Nat) (increment : Volume) : Thins σ tier (.uniform n increment) (.uniform n increment)
  | settle {d d' : Holder} (hd : d.Thins σ tier d') (held : Volume) (n : Nat) :
    Thins σ tier (.settle d held n) (.settle d' held n)

section
variable {σ : SlotMap} {tier : TierPlan} {l s small big : Ledger}

theorem activeEdges_thin (h : small.Thins σ big) (tier : TierPlan) :
    List.Forall₂ (Edge.Thins σ tier) (Round.activeEdges tier.edges big)
      (Round.activeEdges (tier.thin σ).edges small) := by
  have hkept : Round.activeEdges tier.edges big =
      (tier.edges.filter (·.isKept σ)).filter (·.isActive big) := by
    rw [List.filter_filter]
    refine List.filter_congr fun e _ => ?_
    by_cases ha : e.isActive big
    · rw [ha, Edge.isKept_of_isActive h ha]; rfl
    · rw [Bool.eq_false_iff.2 ha]; rfl
  rw [hkept]
  exact forall₂_filter (edges_thin σ tier) fun e e' he => he.isActive_eq h

theorem degree_thin (ht : tier.Fits l) (hs : s.Thins σ l) {d d' : Holder} (hd : d.Thins σ tier d')
    {active active' : List Edge} (ha : List.Forall₂ (Edge.Thins σ tier) active active') :
    d'.degree active' = d.degree active := by
  rw [Holder.degree, Holder.degree, List.countP_eq_length_filter, List.countP_eq_length_filter]
  exact (forall₂_filter ha fun e e' he => hd.owns_eq he ht hs).length_eq.symm

/-- What is gone has no active edge. -/
theorem degree_of_not_isKept (h : small.Thins σ big) {d : Holder} (hd : ¬ d.isKept σ)
    (edges : List Edge) : d.degree (Round.activeEdges edges big) = 0 := by
  refine List.countP_eq_zero.2 fun e he ho => hd ?_
  have hend := Edge.isSome_of_isActive h (Round.mem_activeEdges.1 he).2 d.side
  rwa [Holder.ends_of_owns ho] at hend

theorem sharers_thin (ht : tier.Fits l) (hs : s.Thins σ l) (h : small.Thins σ big) :
    List.Forall₂ (fun p p' => Holder.Thins σ tier p.1 p'.1 ∧ p'.2 = p.2)
      (Round.sharers (tier.holders l) (Round.activeEdges tier.edges big))
      (Round.sharers ((tier.thin σ).holders s) (Round.activeEdges (tier.thin σ).edges small)) := by
  have hkept : Round.sharers (tier.holders l) (Round.activeEdges tier.edges big) =
      Round.sharers ((tier.holders l).filter (·.isKept σ)) (Round.activeEdges tier.edges big) := by
    rw [Round.sharers, Round.sharers, List.filter_map, List.filter_map, List.filter_filter]
    refine congrArg _ (List.filter_congr fun d _ => ?_)
    by_cases hd : d.isKept σ
    · rw [hd, Bool.and_true]
    · simp [degree_of_not_isKept h hd]
  rw [hkept]
  refine forall₂_filter (List.rel_map ?_ (holders_thin hs tier)) fun p p' hp => by rw [hp.2]
  exact fun d d' hd => ⟨hd, degree_thin ht hs hd (activeEdges_thin h tier)⟩

theorem leastOffer_thin (h : small.Thins σ big) {sharers sharers' : List (Holder × Nat)}
    (hp : List.Forall₂ (fun p p' => Holder.Thins σ tier p.1 p'.1 ∧ p'.2 = p.2) sharers sharers') :
    Round.leastOffer small sharers' = Round.leastOffer big sharers := by
  rw [Round.leastOffer, Round.leastOffer,
    map_eq_of_forall₂ hp fun p p' hpp => by rw [hpp.1.remaining_eq h, hpp.2]]

theorem firstShort?_thin (h : small.Thins σ big) {sharers sharers' : List (Holder × Nat)}
    (hp : List.Forall₂ (fun p p' => Holder.Thins σ tier p.1 p'.1 ∧ p'.2 = p.2) sharers sharers') :
    Option.Rel (fun p p' => Holder.Thins σ tier p.1 p'.1 ∧ p'.2 = p.2)
      (Round.firstShort? big sharers) (Round.firstShort? small sharers') := by
  rw [Round.firstShort?, Round.firstShort?]
  induction hp with
  | nil => exact .none
  | @cons p p' _ _ hpp _ ih =>
    rw [List.find?_cons, List.find?_cons, hpp.1.remaining_eq h, hpp.2]
    split
    · exact .some hpp
    · exact ih

/-- The next round is the same, and there is none where there was none. -/
theorem next?_thin (ht : tier.Fits l) (hs : s.Thins σ l) (h : small.Thins σ big) :
    Option.Rel (Round.Thins σ tier) (Round.next? tier.edges (tier.holders l) big)
      (Round.next? (tier.thin σ).edges ((tier.thin σ).holders s) small) := by
  have ha := (activeEdges_thin h tier).length_eq
  have hp := sharers_thin ht hs h
  simp only [Round.next?, Round.ofActive?, List.isEmpty_iff_length_eq_zero, ← ha, leastOffer_thin h hp]
  split
  · exact .none
  split
  · have hshort := firstShort?_thin h hp
    generalize Round.firstShort? big _ = x, Round.firstShort? small _ = x' at hshort
    cases hshort with
    | none => exact .none
    | some hpp =>
      obtain ⟨hd, hn⟩ := hpp
      rw [Option.map_some, Option.map_some, hd.remaining_eq h, hn]
      exact .some (.settle hd _ _)
  · exact .some (.uniform _ _)

theorem grants_thin (ht : tier.Fits l) (hs : s.Thins σ l) (h : small.Thins σ big) {r r' : Round}
    (hr : r.Thins σ tier r') : r'.grants (tier.thin σ).edges small =
      keptVolumes σ tier.edges (r.grants tier.edges big) := by
  cases hr with
  | uniform n increment =>
    rw [Round.grants, Round.grants, keptVolumes_map]
    exact map_eq_of_forall₂ (edges_thin σ tier) fun e e' he => by rw [he.isActive_eq h]
  | settle hd held n =>
    rw [Round.grants, Round.grants, keptVolumes_deal]
    · refine deal_eq_of_forall₂ (edges_thin σ tier) (fun e e' he => ?_) _
      rw [he.isActive_eq h, hd.owns_eq he ht hs]
    · exact fun e he => Edge.isKept_of_isActive h (Bool.and_eq_true_iff.1 he).1

end

/-! ### Fillings -/

structure Filling.Thins (σ : SlotMap) (edges : List Edge) (g f : Filling) : Prop where
  ledger : g.ledger.Thins σ f.ledger
  flows : g.flows = keptVolumes σ edges f.flows

namespace Filling.Thins
variable {σ : SlotMap} {tier : TierPlan} {l s : Ledger} {f g : Filling} {r r' : Round}

theorem start (hs : s.Thins σ l) (tier : TierPlan) :
    (Filling.start (tier.thin σ).edges s).Thins σ tier.edges (Filling.start tier.edges l) where
  ledger := hs
  flows := by
    rw [Filling.start, Filling.start, keptVolumes_map]
    exact map_eq_of_forall₂ (edges_thin σ tier) fun _ _ _ => rfl

theorem apply (ht : tier.Fits l) (hs : s.Thins σ l) (h : g.Thins σ tier.edges f)
    (hr : r.Thins σ tier r') :
    (g.apply (tier.thin σ).edges r').Thins σ tier.edges (f.apply tier.edges r) where
  ledger := by
    refine h.ledger.transferAll fun {side i j} hi => ?_
    rw [grants_thin ht hs h.ledger hr]
    refine unitsAlong_keptVolumes (edges_thin σ tier) (fun e e' he => he.isAt_eq h.ledger hi) ?_
    intro p hp hkept
    refine Nat.eq_zero_of_not_pos fun hpos => hkept ?_
    exact Edge.isKept_of_isActive h.ledger (Round.isActive_of_grants hp hpos)
  flows := by
    show List.zipWith _ _ _ = keptVolumes σ tier.edges (List.zipWith _ _ _)
    rw [keptVolumes_addSat, h.flows, grants_thin ht hs h.ledger hr]

/-- A tier and what thinning leaves of it end in corresponding fillings. -/
theorem run (ht : tier.Fits l) (hs : s.Thins σ l) (h : g.Thins σ tier.edges f) :
    (g.run (tier.thin σ).edges ((tier.thin σ).holders s)).2.Thins σ tier.edges
      (f.run tier.edges (tier.holders l)).2 := by
  fun_induction Filling.run tier.edges (tier.holders l) f generalizing g with
  | case1 f hnone =>
    have hnext := next?_thin ht hs h.ledger
    rw [step_eq_none_iff.1 hnone] at hnext
    cases hnext' : Round.next? (tier.thin σ).edges ((tier.thin σ).holders s) g.ledger with
    | none => rw [run_eq_of_none hnext']; exact h
    | some r' => rw [hnext'] at hnext; cases hnext
  | case2 f r next hsome rounds last hrun ih =>
    obtain ⟨hr, rfl⟩ := step_eq_some_iff.1 hsome
    have hnext := next?_thin ht hs h.ledger
    rw [hr] at hnext
    cases hnext' : Round.next? (tier.thin σ).edges ((tier.thin σ).holders s) g.ledger with
    | none => rw [hnext'] at hnext; cases hnext
    | some r' =>
      rw [hnext'] at hnext
      cases hnext with
      | some hrr =>
        rw [run_eq_of_some hnext']
        have := ih (h.apply ht hs hrr)
        rwa [hrun] at this

end Filling.Thins

namespace TierPlan
variable {σ : SlotMap} {tier : TierPlan} {l s : Ledger}

/-- What thinning leaves of a tier makes the same matches, and leaves a thinned ledger. -/
theorem resolve_thin (ht : tier.Fits l) (hs : s.Thins σ l) :
    ((tier.thin σ).resolve s).pairs = (tier.resolve l).pairs ∧
      ((tier.thin σ).resolve s).ledger.Thins σ (tier.resolve l).ledger := by
  have hfill : ((tier.thin σ).fill s).2.Thins σ tier.edges (tier.fill l).2 :=
    Filling.Thins.run ht hs (Filling.Thins.start hs tier)
  refine ⟨?_, hfill.ledger⟩
  have hb := balanced_fill ht
  -- nothing flows to or from what is gone
  have hzero : ∀ g ∈ tier.edges.zip (tier.fill l).2.flows, ¬ g.1.isKept σ → g.2.units = 0 := by
    intro g hg hkept
    obtain ⟨side, hσ⟩ : ∃ side, σ side (g.1.ends.get side) = none := by
      cases hd : σ .demand g.1.demand with
      | none => exact ⟨.demand, hd⟩
      | some d =>
        cases hs : σ .supply g.1.supply with
        | none => exact ⟨.supply, hs⟩
        | some s => simp [Edge.isKept, hd, hs] at hkept
    have hle := le_unitsAlong (p := (·.isAt side (g.1.ends.get side))) hg (Edge.isAt_iff.2 rfl)
    have hbal := hb.balance side (g.1.ends.get side)
    rw [hs.dead hσ, Filling.along] at hbal
    omega
  have hkept : pairs l tier.edges (tier.fill l).2.flows =
      ((tier.edges.zip (tier.fill l).2.flows).filter fun g => g.1.isKept σ).filterMap fun g =>
        if g.2.isZero then none
        else some ⟨l.id .demand g.1.demand, l.id .supply g.1.supply, g.2⟩ := by
    rw [List.filterMap_filter, pairs]
    refine List.filterMap_congr fun g hg => ?_
    by_cases hk : g.1.isKept σ
    · rw [if_pos hk]
    · rw [if_neg hk, if_pos (Volume.isZero_iff.2 (hzero g hg hk))]
  show pairs s (tier.thin σ).edges ((tier.thin σ).fill s).2.flows =
    pairs l tier.edges (tier.fill l).2.flows
  rw [hkept, hfill.flows, ← zip_keptVolumes]
  refine filterMap_eq_of_forall₂ (forall₂_zip_same (edges_thin σ tier) _) fun g g' hg => ?_
  have hd : s.id .demand g'.1.demand = l.id .demand g.1.demand := hs.id (hg.1.ends .demand)
  have hs' : s.id .supply g'.1.supply = l.id .supply g.1.supply := hs.id (hg.1.ends .supply)
  rw [hg.2, hd, hs']

end TierPlan
end FairShare
