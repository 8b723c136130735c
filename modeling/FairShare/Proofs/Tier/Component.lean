import FairShare.Proofs.Tier.Plain

/-!
# A part of a tier with slots of its own

A set of slots is `Closed` for some edges if every edge either lies within it, with all that is ahead,
or has neither end in it. Then what is within is filled as if the rest was not there. While nobody is
short, a unit goes along every active edge, within and without. Once somebody is short, only their
edges get anything: if these are within, so is the first who is short there, and otherwise nothing
happens within (`Filling.recipients_within`). A run on all edges is therefore a run on those within,
with pauses (`Filling.Shows.serveAll`).
-/

namespace FairShare

/-- Whether an edge or a holder belongs to a set of slots. No supply slot is ruled out as a holder. -/
def Edge.within (own : Side → Nat → Bool) (e : Edge) : Bool := own .demand e.demand

def Holder.within (own : Side → Nat → Bool) : Holder → Bool
  | .member _ d => own .demand d
  | .supply _ => true

def Closed (own : Side → Nat → Bool) (edges : List Edge) : Prop :=
  ∀ e ∈ edges, ((∀ side, own side (e.ends.get side)) ∧ ∀ s ∈ e.ahead, own .supply s) ∨
    ∀ side, ¬ own side (e.ends.get side)

/-- Slots of a set hold the same in both ledgers. -/
def Ledger.AgreesOn (own : Side → Nat → Bool) (l m : Ledger) : Prop :=
  ∀ side i, own side i → l.remaining side i = m.remaining side i

variable {own : Side → Nat → Bool} {edges : List Edge} {l m : Ledger}
  {e : Edge}

theorem Closed.own_iff (hc : Closed own edges) (he : e ∈ edges) (side : Side) :
    own side (e.ends.get side) ↔ e.within own := by
  rcases hc e he with ⟨hin, -⟩ | hout
  · exact iff_of_true (hin side) (hin .demand)
  · exact iff_of_false (hout side) (hout .demand)

theorem Closed.ahead (hc : Closed own edges) (he : e ∈ edges) (hw : e.within own) {s : Nat}
    (hs : s ∈ e.ahead) : own .supply s := by
  rcases hc e he with ⟨-, hin⟩ | hout
  · exact hin s hs
  · exact absurd hw (hout .demand)

theorem Ledger.AgreesOn.isLive_eq (ha : l.AgreesOn own m) {side : Side} {i : Nat}
    (hi : own side i) : m.isLive side i = l.isLive side i := by
  rw [isLive, isLive, ha side i hi]

theorem Closed.isActive_eq (hc : Closed own edges) (ha : l.AgreesOn own m) (he : e ∈ edges)
    (hw : e.within own) : e.isActive m = e.isActive l := by
  rw [Bool.eq_iff_iff, Edge.isActive_iff, Edge.isActive_iff]
  refine and_congr (forall_congr' fun side => ?_) (forall₂_congr fun s hs => ?_)
  · rw [ha.isLive_eq ((hc.own_iff he side).2 hw)]
  · rw [ha.isLive_eq (hc.ahead he hw hs)]

namespace Filling

theorem activeEdges_within (hc : Closed own edges) (ha : l.AgreesOn own m) :
    Round.activeEdges (edges.filter (·.within own)) m =
      (Round.activeEdges edges l).filter (·.within own) := by
  rw [Round.activeEdges, Round.activeEdges, List.filter_filter, List.filter_filter]
  refine List.filter_congr fun e he => ?_
  by_cases hw : e.within own
  · rw [hc.isActive_eq ha he hw, Bool.and_comm]
  · rw [Bool.eq_false_iff.2 hw, Bool.and_false, Bool.false_and]

/-- The edges of a holder who has one within are all within. -/
theorem within_of_owns (hc : Closed own edges) {h : Holder} {e e' : Edge} (he : e ∈ edges)
    (ho : h.owns e) (hw : e.within own) (he' : e' ∈ edges) (ho' : h.owns e') : e'.within own := by
  rw [← hc.own_iff he h.side, Holder.ends_of_owns ho, ← Holder.ends_of_owns ho'] at hw
  exact (hc.own_iff he' h.side).1 hw

theorem filter_owns_within (hc : Closed own edges) (ha : l.AgreesOn own m) {h : Holder}
    (he : e ∈ edges) (ho : h.owns e) (hw : e.within own) :
    (Round.activeEdges (edges.filter (·.within own)) m).filter h.owns =
      (Round.activeEdges edges l).filter h.owns := by
  rw [activeEdges_within hc ha, List.filter_filter]
  refine List.filter_congr fun e' he' => ?_
  by_cases ho' : h.owns e'
  · rw [ho', within_of_owns hc he ho hw (Round.mem_activeEdges.1 he').1 ho']; rfl
  · rw [Bool.eq_false_iff.2 ho', Bool.false_and]

theorem degree_within (hc : Closed own edges) (ha : l.AgreesOn own m) {h : Holder}
    (he : e ∈ edges) (ho : h.owns e) (hw : e.within own) :
    h.degree (Round.activeEdges (edges.filter (·.within own)) m) =
      h.degree (Round.activeEdges edges l) := by
  rw [Holder.degree, Holder.degree, List.countP_eq_length_filter, List.countP_eq_length_filter,
    filter_owns_within hc ha he ho hw]

theorem remaining_within (hc : Closed own edges) (ha : l.AgreesOn own m) {h : Holder}
    (he : e ∈ edges) (ho : h.owns e) (hw : e.within own) : h.remaining m = h.remaining l := by
  rw [Holder.remaining_eq, Holder.remaining_eq, ← Holder.ends_of_owns ho]
  exact (ha _ _ ((hc.own_iff he h.side).2 hw)).symm

theorem holder_within {h : Holder} (ho : h.owns e) (hw : e.within own) : h.within own := by
  cases h with
  | supply s => rfl
  | member i d =>
    have hd : e.demand = d := Holder.ends_of_owns ho
    rwa [Edge.within, hd] at hw

/-- Who is short within is short, and may own what is within. -/
theorem short_of_short_within (hc : Closed own edges) (ha : l.AgreesOn own m) {h : Holder}
    (hs : (h.remaining m).units <
      h.degree (Round.activeEdges (edges.filter (·.within own)) m)) :
    (h.remaining l).units < h.degree (Round.activeEdges edges l) ∧ h.within own := by
  obtain ⟨e, he, ho⟩ := List.countP_pos_iff.1 (Nat.zero_lt_of_lt hs)
  obtain ⟨hmem, -⟩ := Round.mem_activeEdges.1 he
  obtain ⟨hedge, hw⟩ := List.mem_filter.1 hmem
  rw [← degree_within hc ha hedge ho hw, ← remaining_within hc ha hedge ho hw]
  exact ⟨hs, holder_within ho hw⟩

/-- The first who is short is also the first of those within, if any of their edges lies there. -/
theorem find?_short_within (hc : Closed own edges) (ha : l.AgreesOn own m)
    {holders : List Holder} {h : Holder} (hfind : holders.find? (fun h =>
      (h.remaining l).units < h.degree (Round.activeEdges edges l)) = some h)
    (he : e ∈ edges) (ho : h.owns e) (hw : e.within own) :
    (holders.filter (·.within own)).find? (fun h => (h.remaining m).units <
      h.degree (Round.activeEdges (edges.filter (·.within own)) m)) = some h := by
  obtain ⟨hshort, before, after, rfl, hbefore⟩ := List.find?_eq_some_iff_append.1 hfind
  rw [List.filter_append, List.filter_cons_of_pos (holder_within ho hw),
    List.find?_eq_some_iff_append]
  refine ⟨?_, _, _, rfl, fun h' hh' => ?_⟩
  · rw [degree_within hc ha he ho hw, remaining_within hc ha he ho hw]
    exact hshort
  · have hnot := hbefore h' (List.mem_filter.1 hh').1
    simp only [Bool.not_eq_true', decide_eq_false_iff_not] at hnot ⊢
    exact fun hs => hnot (short_of_short_within hc ha hs).1

/-- Within, either what would get a unit there does, or nothing gets any. -/
theorem recipients_within (hc : Closed own edges) (ha : l.AgreesOn own m)
    (holders : List Holder) :
    (recipients edges holders l).filter (·.within own) =
      recipients (edges.filter (·.within own)) (holders.filter (·.within own)) m ∨
    (recipients edges holders l).filter (·.within own) = [] := by
  rw [recipients]
  split
  · next hnone =>
    left
    rw [recipients_of_le, activeEdges_within hc ha]
    intro h hh
    refine Nat.le_of_not_lt fun hs => ?_
    have := List.find?_eq_none.1 hnone h (List.mem_filter.1 hh).1
    exact this (decide_eq_true (short_of_short_within hc ha hs).1)
  · next h hfind =>
    by_cases hin : ∃ e ∈ edges, h.owns e ∧ e.within own
    · left
      obtain ⟨e, he, ho, hw⟩ := hin
      have hall : ∀ e' ∈ ((Round.activeEdges edges l).filter h.owns).take (h.remaining l).units,
          e'.within own := by
        intro e' he'
        obtain ⟨hact, ho'⟩ := List.mem_filter.1 (List.mem_of_mem_take he')
        exact within_of_owns hc he ho hw (Round.mem_activeEdges.1 hact).1 ho'
      rw [List.filter_eq_self.2 hall, recipients, find?_short_within hc ha hfind he ho hw]
      simp only [remaining_within hc ha he ho hw, filter_owns_within hc ha he ho hw]
    · right
      refine List.filter_eq_nil_iff.2 fun e he hw => ?_
      obtain ⟨hact, ho⟩ := List.mem_filter.1 (List.mem_of_mem_take he)
      exact hin ⟨e, (Round.mem_activeEdges.1 hact).1, ho, hw⟩

/-! ### Runs -/

/-- The second filling is what the first one is within a set of slots. -/
structure Shows (own : Side → Nat → Bool) (edges : List Edge) (f g : Filling) : Prop where
  agrees : f.ledger.AgreesOn own g.ledger
  table : (edges.filter (·.within own)).zip g.flows =
    (edges.zip f.flows).filter fun x => x.1.within own

theorem zip_addSat_map (edges : List Edge) (flows : List Volume) (v : Edge → Volume) :
    edges.zip (List.zipWith Volume.addSat flows (edges.map v)) =
      (edges.zip flows).map fun x => (x.1, x.2.addSat (v x.1)) := by
  induction edges generalizing flows with
  | nil => rfl
  | cons e edges ih =>
    cases flows with
    | nil => rfl
    | cons x flows =>
      rw [List.map_cons, List.zipWith_cons_cons, List.zip_cons_cons, ih, List.zip_cons_cons,
        List.map_cons]

/-- Only what is granted within matters there. -/
theorem unitsAlong_within (hc : Closed own edges) {side : Side} {i : Nat} (hi : own side i)
    (v : Edge → Volume) : unitsAlong (·.isAt side i) (edges.map fun e => (e, v e)) =
      unitsAlong (·.isAt side i) ((edges.filter (·.within own)).map fun e => (e, v e)) := by
  rw [unitsAlong, unitsAlong, List.filter_map, List.filter_map, List.filter_filter]
  congr 3
  refine List.filter_congr fun e he => ?_
  by_cases hat : e.isAt side i
  · rw [Edge.isAt_iff] at hat
    rw [← hat, hc.own_iff he] at hi
    simp [hi]
  · simp [hat]

theorem remaining_serve (edges : List Edge) (f : Filling) (served : List Edge) (side : Side)
    (i : Nat) : ((f.serve edges served).ledger.remaining side i).units =
      (f.ledger.remaining side i).units - unitsAlong (·.isAt side i)
        (edges.map fun e => (e, if e ∈ served then Volume.one else .zero)) := by
  rw [serve, zip_map_self, Ledger.units_remaining_transferAll]

theorem Shows.serve (hc : Closed own edges) {f g : Filling} (h : f.Shows own edges g)
    (served : List Edge) : (f.serve edges served).Shows own edges
      (g.serve (edges.filter (·.within own)) (served.filter (·.within own))) where
  agrees side i hi := by
    refine Volume.ext ?_
    rw [remaining_serve, remaining_serve, unitsAlong_within hc hi, h.agrees side i hi]
    congr 2
    refine List.map_congr_left fun e he => ?_
    simp only [List.mem_filter, (List.mem_filter.1 he).2, and_true]
  table := by
    have hunits : (edges.filter (·.within own)).map (fun e =>
        if e ∈ served.filter (·.within own) then Volume.one else .zero) =
        (edges.filter (·.within own)).map fun e => if e ∈ served then Volume.one else .zero := by
      refine List.map_congr_left fun e he => ?_
      simp only [List.mem_filter, (List.mem_filter.1 he).2, and_true]
    rw [Filling.serve, Filling.serve]
    simp only [hunits, zip_addSat_map, h.table, List.filter_map]
    rfl

/-- Serving only what is without changes nothing within. -/
theorem Shows.skip (hc : Closed own edges) {f g : Filling} (h : f.Shows own edges g)
    {served : List Edge} (hs : served.filter (·.within own) = []) :
    (f.serve edges served).Shows own edges g := by
  have hnot : ∀ e, e.within own → e ∉ served := fun e hw he =>
    List.filter_eq_nil_iff.1 hs e he hw
  constructor
  · intro side i hi
    refine Volume.ext ?_
    rw [remaining_serve, unitsAlong_within hc hi, h.agrees side i hi, unitsAlong_eq_zero]
    · rfl
    · intro x hx _
      obtain ⟨e, he, rfl⟩ := List.mem_map.1 hx
      rw [if_neg (hnot e (List.mem_filter.1 he).2)]
      rfl
  · rw [Filling.serve, zip_addSat_map, List.filter_map, h.table]
    have hsame : ∀ x ∈ (edges.zip f.flows).filter fun x => x.1.within own,
        (x.1, x.2.addSat (if x.1 ∈ served then .one else .zero)) = id x := fun x hx => by
      rw [if_neg (hnot x.1 (List.mem_filter.1 hx).2), Volume.addSat_zero]
      rfl
    exact ((List.map_congr_left hsame).trans (List.map_id _)).symm

/-- A run on all edges shows a run on those within. -/
theorem Shows.serveAll (hc : Closed own edges) {f g : Filling} (h : f.Shows own edges g)
    (holders : List Holder) :
    (f.serveAll edges holders).Shows own edges
      (g.serveAll (edges.filter (·.within own)) (holders.filter (·.within own))) := by
  fun_induction Filling.serveAll edges holders f generalizing g with
  | case1 f hnil =>
    have hdone : Round.activeEdges (edges.filter (·.within own)) g.ledger = [] := by
      rw [activeEdges_within hc h.agrees, hnil]; rfl
    rwa [serveAll_of_nil hdone]
  | case2 f hne ih =>
    rcases recipients_within hc h.agrees holders with heq | hnone
    · by_cases hdone : Round.activeEdges (edges.filter (·.within own)) g.ledger = []
      · -- nothing is active within, so nothing there can get a unit
        refine ih (h.skip hc ?_)
        rw [heq]
        refine List.eq_nil_iff_forall_not_mem.2 fun e he => ?_
        have hact := Round.mem_activeEdges.2 (isActive_of_mem_recipients he)
        rw [hdone] at hact
        exact absurd hact List.not_mem_nil
      · rw [serveAll_of_ne_nil hdone, ← heq]
        exact ih (h.serve hc _)
    · exact ih (h.skip hc hnone)

end Filling
end FairShare
