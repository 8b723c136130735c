import FairShare.Proofs.Tier.Exchange
import FairShare.Proofs.Tier.Exhaustion

/-!
# Filling unit by unit

`TierPlan.resolveUnitwise` fills a tier with no increments and no splits: as long as anything is
active, one unit goes along every active edge, or, if somebody holds fewer units than it has active
edges, the first who does gives one to as many of its edges as it can, earlier ones first. Who is
first is told without holders by `TierPlan.ServesNext`, which leaves no choice (`ServesNext.unique`):
members come in the order of the tier, and supply after them in the order of its group.

It comes to the same matches and the same ledger (`TierPlan.resolve_eq_resolveUnitwise`). A settlement
is one such step (`Filling.serve_settle`). An increment of `n` is `n` of them, because nobody is
exhausted on the way, so that the active edges stay the same (`Filling.serveAll_uniform`).
-/

namespace FairShare

namespace Round

theorem deal_append_zero (p : Edge → Bool) (parts : List Volume) (n : Nat) (edges : List Edge) :
    deal p (parts ++ List.replicate n .zero) edges = deal p parts edges := by
  induction edges generalizing parts n with
  | nil => rfl
  | cons e edges ih =>
    by_cases hp : p e
    · rw [deal, deal, if_pos hp, if_pos hp]
      cases parts with
      | cons v parts => rw [List.cons_append, List.tail_cons, List.tail_cons, ih]; rfl
      | nil =>
        cases n with
        | zero => rfl
        | succ n =>
          have := ih [] n
          rw [List.nil_append] at this
          rw [List.nil_append, List.replicate_succ, List.tail_cons, List.tail_nil, this]; rfl
    · rw [deal, deal, if_neg hp, if_neg hp, ih]

theorem zip_replicate (edges : List Edge) (k : Nat) (v : Volume) :
    edges.zip (List.replicate k v) = (edges.take k).map fun e => (e, v) := by
  induction edges generalizing k with
  | nil => simp
  | cons e edges ih =>
    cases k with
    | zero => rfl
    | succ k => rw [List.replicate_succ, List.zip_cons_cons, ih, List.take_succ_cons, List.map_cons]

theorem deal_replicate_one {edges : List Edge} {p : Edge → Bool} (hn : (edges.filter p).Nodup)
    (k : Nat) : deal p (List.replicate k .one) edges =
      edges.map fun e => if e ∈ (edges.filter p).take k then Volume.one else .zero := by
  rw [deal_eq_volumeOn hn, zip_replicate]
  exact List.map_congr_left fun e _ => volumeOn_map ..

theorem find?_of_firstShort? {l : Ledger} {edges : List Edge} {holders : List Holder} {h : Holder}
    (hs : firstShort? l (sharers holders edges) = some (h, h.degree edges)) :
    (holders.find? fun h => (h.remaining l).units < h.degree edges) = some h := by
  have hall : (sharers holders edges).find? (fun s => (s.1.remaining l).units < s.2) =
      (holders.map fun h => (h, h.degree edges)).find? fun s => (s.1.remaining l).units < s.2 := by
    rw [sharers, List.find?_filter]
    refine congrArg (List.find? · _) (funext fun s => ?_)
    rw [decide_eq_decide, decide_eq_true_iff, decide_eq_true_iff]
    omega
  rw [firstShort?, hall, List.find?_map, Option.map_eq_some_iff] at hs
  obtain ⟨h', hfind, heq⟩ := hs
  obtain rfl : h' = h := congrArg Prod.fst heq
  exact hfind

end Round

namespace Filling

section
variable (edges : List Edge) (holders : List Holder)

/-- The edges that get a unit next: all that are active, unless somebody is short of units for its
own, and then as many of these as it has units. -/
def recipients (l : Ledger) : List Edge :=
  match holders.find? fun h => (h.remaining l).units < h.degree (Round.activeEdges edges l) with
  | none => Round.activeEdges edges l
  | some h => ((Round.activeEdges edges l).filter h.owns).take (h.remaining l).units

/-- A unit along each of some edges. -/
def serve (f : Filling) (served : List Edge) : Filling :=
  let units := edges.map fun e => if e ∈ served then Volume.one else .zero
  ⟨f.ledger.transferAll (edges.zip units), List.zipWith Volume.addSat f.flows units⟩

variable {edges holders} {l : Ledger} {f : Filling} {e : Edge}

theorem isActive_of_mem_recipients (h : e ∈ recipients edges holders l) :
    e ∈ edges ∧ e.isActive l := by
  unfold recipients at h
  split at h
  · exact Round.mem_activeEdges.1 h
  · exact Round.mem_activeEdges.1 (List.mem_filter.1 (List.mem_of_mem_take h)).1

theorem exists_mem_recipients (holders : List Holder) (h : Round.activeEdges edges l ≠ []) :
    ∃ e, e ∈ recipients edges holders l := by
  refine List.exists_mem_of_ne_nil _ ?_
  unfold recipients
  split
  · exact h
  · next d hfind =>
    have hshort : (d.remaining l).units < d.degree (Round.activeEdges edges l) := by
      simpa using List.find?_some hfind
    obtain ⟨e, he, ho⟩ := List.countP_pos_iff.1 (Nat.zero_lt_of_lt hshort)
    have hheld : 0 < (d.remaining l).units :=
      Round.remaining_pos_of_owns (Round.mem_activeEdges.1 he).2 ho
    have howned : (Round.activeEdges edges l).filter d.owns ≠ [] :=
      List.ne_nil_of_mem (List.mem_filter.2 ⟨he, ho⟩)
    simp only [ne_eq, List.take_eq_nil_iff, howned, or_false]
    omega

theorem zip_map_self (edges : List Edge) (v : Edge → Volume) :
    edges.zip (edges.map v) = edges.map fun e => (e, v e) := by
  induction edges with
  | nil => rfl
  | cons e edges ih => rw [List.map_cons, List.zip_cons_cons, ih, List.map_cons]

/-- The supply goes down with every step. -/
theorem supplyLeft_serve_lt (h : Round.activeEdges edges f.ledger ≠ []) :
    (f.serve edges (recipients edges holders f.ledger)).ledger.supplyLeft < f.ledger.supplyLeft := by
  rw [serve, zip_map_self]
  refine Ledger.supplyLeft_transferAll_lt (fun g hg hpos => ?_) ?_
  · obtain ⟨e, -, rfl⟩ := List.mem_map.1 hg
    by_cases he : e ∈ recipients edges holders f.ledger
    · exact Round.isLive_supply_of_isActive (isActive_of_mem_recipients he).2
    · simp [he] at hpos
  · obtain ⟨e, he⟩ := exists_mem_recipients holders h
    refine ⟨_, List.mem_map_of_mem (isActive_of_mem_recipients he).1, ?_⟩
    simp [he, Volume.one]

variable (edges holders)

/-- Goes on by units until no edge is active. -/
def serveAll (f : Filling) : Filling :=
  if _h : Round.activeEdges edges f.ledger = [] then f
  else serveAll (f.serve edges (recipients edges holders f.ledger))
termination_by f.ledger.supplyLeft
decreasing_by exact supplyLeft_serve_lt ‹_›

variable {edges holders} {r : Round}

theorem serveAll_of_nil (h : Round.activeEdges edges f.ledger = []) :
    f.serveAll edges holders = f := by
  rw [serveAll, dif_pos h]

theorem serveAll_of_ne_nil (h : Round.activeEdges edges f.ledger ≠ []) :
    f.serveAll edges holders =
      (f.serve edges (recipients edges holders f.ledger)).serveAll edges holders := by
  rw [serveAll, dif_neg h]

theorem serve_eq_apply {served : List Edge} (h : r.grants edges f.ledger =
    edges.map fun e => if e ∈ served then Volume.one else .zero) :
    f.serve edges served = f.apply edges r := by
  rw [serve, apply, h]

end

variable {tier : TierPlan} {l : Ledger} {f : Filling} {r : Round}

/-! ### Settlements -/

theorem serve_settle (ht : tier.Fits l) {h : Holder} {held : Volume} {d : Nat}
    (hr : Round.next? tier.edges (tier.holders l) f.ledger = some (.settle h held d)) :
    f.serve tier.edges (recipients tier.edges (tier.holders l) f.ledger) =
      f.apply tier.edges (.settle h held d) := by
  rcases Round.next?_cases hr with ⟨_, hc, -⟩ | ⟨_, hc, hs⟩
  · cases hc
  · cases hc
    have hfilter := Round.filter_activeEdges tier.edges f.ledger h.owns
    have hn := (ht.nodup_activeEdges f.ledger).sublist (List.filter_sublist (p := h.owns))
    refine serve_eq_apply ?_
    rw [Round.grants, Volume.split_of_lt (Round.firstShort?_spec hs).2, Round.deal_append_zero,
      Round.deal_replicate_one (hfilter ▸ hn), recipients, Round.find?_of_firstShort? hs]
    simp only [hfilter]

/-! ### Increments -/

theorem recipients_of_le {edges : List Edge} {holders : List Holder}
    (hle : ∀ h ∈ holders, h.degree (Round.activeEdges edges l) ≤ (h.remaining l).units) :
    recipients edges holders l = Round.activeEdges edges l := by
  have hnone : (holders.find? fun h =>
      (h.remaining l).units < h.degree (Round.activeEdges edges l)) = none :=
    List.find?_eq_none.2 fun h hh => by simpa using hle h hh
  rw [recipients, hnone]

/-- As long as nobody is short, a step is an increment of one unit. -/
theorem serveAll_of_le {edges : List Edge} {holders : List Holder}
    (hne : Round.activeEdges edges f.ledger ≠ [])
    (hle : ∀ h ∈ holders, h.degree (Round.activeEdges edges f.ledger) ≤ (h.remaining f.ledger).units)
    (n : Nat) : f.serveAll edges holders = (f.apply edges (.uniform n .one)).serveAll edges holders := by
  rw [serveAll_of_ne_nil hne, recipients_of_le hle]
  refine congrArg _ (serve_eq_apply ?_)
  rw [Round.grants]
  refine List.map_congr_left fun e he => ?_
  simp only [Round.mem_activeEdges, he, true_and]

theorem zipWith_addSat_map {edges : List Edge} {a b c : Edge → Volume}
    (h : ∀ e ∈ edges, ∀ x : Volume, (x.addSat (a e)).addSat (b e) = x.addSat (c e))
    (flows : List Volume) :
    List.zipWith Volume.addSat (List.zipWith Volume.addSat flows (edges.map a)) (edges.map b) =
      List.zipWith Volume.addSat flows (edges.map c) := by
  induction edges generalizing flows with
  | nil => simp
  | cons e edges ih =>
    obtain ⟨he, hedges⟩ := List.forall_mem_cons.1 h
    cases flows with
    | nil => rfl
    | cons x flows => simp only [List.map_cons, List.zipWith_cons_cons, he, ih hedges]

theorem ext {f g : Filling} (hledger : f.ledger = g.ledger) (hflows : f.flows = g.flows) : f = g := by
  cases f; cases g; cases hledger; cases hflows; rfl

theorem apply_uniform_uniform {edges : List Edge} {n : Nat} {u v w : Volume}
    (hactive : Round.activeEdges edges (f.apply edges (.uniform n v)).ledger =
      Round.activeEdges edges f.ledger) (hu : u.units = v.units + w.units) :
    (f.apply edges (.uniform n v)).apply edges (.uniform n w) = f.apply edges (.uniform n u) := by
  refine ext (Ledger.ext_remaining (fun side => ?_) fun side i => ?_) ?_
  · rw [ids_apply, ids_apply, ids_apply]
  · rw [remaining_apply, remaining_apply, remaining_apply, Round.granted_uniform,
      Round.granted_uniform, Round.granted_uniform, hactive, Nat.sub_sub, ← Nat.add_mul, hu]
  · refine zipWith_addSat_map (fun e he x => ?_) f.flows
    have hact : e.isActive (f.apply edges (.uniform n v)).ledger = e.isActive f.ledger := by
      have hmem : (e ∈ Round.activeEdges edges (f.apply edges (.uniform n v)).ledger) =
          (e ∈ Round.activeEdges edges f.ledger) := congrArg (e ∈ ·) hactive
      simpa only [Round.mem_activeEdges, he, true_and, eq_iff_iff, Bool.coe_iff_coe] using hmem
    rw [hact]
    split
    · exact Volume.addSat_addSat hu x
    · exact Volume.addSat_addSat rfl x

/-- An increment is as many steps as it has units. -/
theorem serveAll_uniform (ht : tier.Fits f.ledger) (hne : Round.activeEdges tier.edges f.ledger ≠ [])
    {k : Nat} {v : Volume} (hv : v.units = k + 1) (hle : ∀ h ∈ tier.holders f.ledger,
      v.units * h.degree (Round.activeEdges tier.edges f.ledger) ≤ (h.remaining f.ledger).units)
    (n : Nat) : f.serveAll tier.edges (tier.holders f.ledger) =
      (f.apply tier.edges (.uniform n v)).serveAll tier.edges (tier.holders f.ledger) := by
  induction k generalizing f v with
  | zero =>
    obtain rfl : v = .one := Volume.ext hv
    refine serveAll_of_le hne (fun h hh => ?_) n
    have := hle h hh
    rwa [hv, Nat.zero_add, Nat.one_mul] at this
  | succ k ih =>
    obtain ⟨w, hw⟩ : ∃ w : Volume, w.units = k + 1 :=
      ⟨⟨k + 1, by have := v.units_lt; omega⟩, rfl⟩
    have hvw : v.units = Volume.one.units + w.units := by
      show _ = 1 + _
      omega
    have hshare : ∀ h ∈ tier.holders f.ledger,
        h.degree (Round.activeEdges tier.edges f.ledger) +
          w.units * h.degree (Round.activeEdges tier.edges f.ledger) ≤
            (h.remaining f.ledger).units := fun h hh => by
      have := hle h hh
      rwa [hvw, Nat.add_mul, Volume.one, Nat.one_mul] at this
    -- after the first unit everybody still has their share of the others, so nobody is exhausted
    have hleft : ∀ h ∈ tier.holders f.ledger,
        w.units * h.degree (Round.activeEdges tier.edges f.ledger) ≤
          (h.remaining (f.apply tier.edges (.uniform n .one)).ledger).units := fun h hh => by
      have := hshare h hh
      rw [Holder.remaining_eq, remaining_apply_uniform ht hh, Volume.one, Nat.one_mul]
      omega
    have hactive : Round.activeEdges tier.edges (f.apply tier.edges (.uniform n .one)).ledger =
        Round.activeEdges tier.edges f.ledger := by
      refine activeEdges_apply ht fun h hh hd => ?_
      rw [Ledger.isLive_iff, ← Holder.remaining_eq]
      exact Nat.lt_of_lt_of_le (Nat.mul_pos (by omega) hd) (hleft h hh)
    have hfits : tier.Fits (f.apply tier.edges (.uniform n .one)).ledger := ht.congr (ids_apply f _)
    have hshort : ∀ h ∈ tier.holders f.ledger,
        h.degree (Round.activeEdges tier.edges f.ledger) ≤ (h.remaining f.ledger).units :=
      fun h hh => Nat.le_trans (Nat.le_add_right ..) (hshare h hh)
    rw [serveAll_of_le hne hshort n, ← apply_uniform_uniform hactive hvw]
    rw [← hactive] at hne hleft
    rw [← holders_apply tier f (.uniform n .one)] at hleft ⊢
    exact ih hfits hne hw hleft

/-- A run and the same by units end alike. -/
theorem serveAll_eq_run (ht : tier.Fits l) (hb : f.Balanced tier.edges l) :
    f.serveAll tier.edges (tier.holders l) = (f.run tier.edges (tier.holders l)).2 := by
  fun_induction run tier.edges (tier.holders l) f with
  | case1 f h =>
    have hnone := step_eq_none_iff.1 h
    rw [hb.holders_eq tier] at hnone
    rw [serveAll_of_nil ((Round.next?_eq_none_iff (hb.fits ht)).1 hnone)]
  | case2 f r next h rounds last hrun ih =>
    obtain ⟨hr, rfl⟩ := step_eq_some_iff.1 h
    rw [hrun] at ih
    rw [← ih (hb.apply ht hr)]
    have hne := Round.activeEdges_ne_nil hr
    cases r with
    | settle h held d => rw [serveAll_of_ne_nil hne, serve_settle ht hr]
    | uniform n increment =>
      obtain ⟨k, hk⟩ : ∃ k, increment.units = k + 1 :=
        ⟨increment.units - 1, by have := Round.increment_pos hr; omega⟩
      rw [hb.holders_eq tier] at hr ⊢
      refine serveAll_uniform (hb.fits ht) hne hk (fun h hh => ?_) n
      rcases Nat.eq_zero_or_pos (h.degree (Round.activeEdges tier.edges f.ledger)) with h0 | hd
      · rw [h0]; exact Nat.zero_le _
      · exact Round.increment_mul_le hr hh hd

end Filling

namespace TierPlan

/-! ### The settling order -/

section
variable (tier : TierPlan) (l : Ledger)

/-- A slot that has fewer units than active edges. -/
def Short (side : Side) (i : Nat) : Prop :=
  (l.remaining side i).units < (Round.activeEdges tier.edges l).countP (·.isAt side i)

instance (side : Side) (i : Nat) : Decidable (tier.Short l side i) :=
  inferInstanceAs (Decidable (_ < _))

/-- As many of the active edges of a slot as it has units, earlier ones first. -/
def firstEdges (side : Side) (i : Nat) : List Edge :=
  ((Round.activeEdges tier.edges l).filter (·.isAt side i)).take (l.remaining side i).units

/-- The edges that get the next unit: those of the first short member in the order of the tier; if no
member is short, those of the first short supply in the order of the group; and if nobody is, all
that are active. -/
inductive ServesNext : List Edge → Prop
  | member {before after : List Member} {m : Member} (htier : tier = before ++ m :: after)
      (hbefore : ∀ n ∈ before, ¬ tier.Short l .demand n.demand)
      (hshort : tier.Short l .demand m.demand) : ServesNext (tier.firstEdges l .demand m.demand)
  | supply {s : Nat} (hmembers : ∀ m ∈ tier, ¬ tier.Short l .demand m.demand)
      (hbefore : ∀ t < s, ¬ tier.Short l .supply t) (hshort : tier.Short l .supply s) :
      ServesNext (tier.firstEdges l .supply s)
  | everyone (hmembers : ∀ m ∈ tier, ¬ tier.Short l .demand m.demand)
      (hsupplies : ∀ s, ¬ tier.Short l .supply s) : ServesNext (Round.activeEdges tier.edges l)

end

variable {tier : TierPlan} {l : Ledger} {h : Holder}

theorem short_iff (ht : tier.Fits l) (hh : h ∈ tier.holders l) : tier.Short l h.side h.slot ↔
    (h.remaining l).units < h.degree (Round.activeEdges tier.edges l) := by
  rw [Short, ht.degree_eq hh, Holder.remaining_eq]

/-- Who is short is a holder: otherwise it would have no edge. -/
theorem Short.exists_holder (ht : tier.Fits l) {side : Side} {i : Nat} (h : tier.Short l side i) :
    ∃ x ∈ tier.holders l, x.side = side ∧ x.slot = i := by
  obtain ⟨e, he, hat⟩ := List.countP_pos_iff.1 (Nat.zero_lt_of_lt h)
  obtain ⟨x, hx, howns, rfl⟩ := ht.exists_holder (Round.mem_activeEdges.1 he).1 side
  exact ⟨x, hx, rfl, (Holder.ends_of_owns howns).symm.trans (Edge.isAt_iff.1 hat)⟩

theorem find?_short {before after : List Member} {m : Member} (htier : tier = before ++ m :: after)
    (hbefore : ∀ n ∈ before, ¬ tier.Short l .demand n.demand)
    (hshort : tier.Short l .demand m.demand) :
    (tier.find? fun n => tier.Short l .demand n.demand) = some m :=
  List.find?_eq_some_iff_append.2
    ⟨decide_eq_true hshort, before, after, htier, fun n hn => by simpa using hbefore n hn⟩

theorem ServesNext.unique {served served' : List Edge} (h : tier.ServesNext l served)
    (h' : tier.ServesNext l served') : served = served' := by
  cases h with
  | member htier hbefore hshort =>
    cases h' with
    | member htier' hbefore' hshort' =>
      have hfind := find?_short htier hbefore hshort
      rw [find?_short htier' hbefore' hshort'] at hfind
      rw [Option.some.inj hfind]
    | supply hmembers => exact absurd hshort (hmembers _ (by simp [htier]))
    | everyone hmembers => exact absurd hshort (hmembers _ (by simp [htier]))
  | @supply s hmembers hbefore hshort =>
    cases h' with
    | member htier _ hshort' => exact absurd hshort' (hmembers _ (by simp [htier]))
    | @supply t _ hbefore' hshort' =>
      rcases Nat.lt_trichotomy s t with hlt | rfl | hlt
      · exact absurd hshort (hbefore' s hlt)
      · rfl
      · exact absurd hshort' (hbefore t hlt)
    | everyone _ hsupplies => exact absurd hshort (hsupplies s)
  | everyone hmembers hsupplies =>
    cases h' with
    | member htier _ hshort => exact absurd hshort (hmembers _ (by simp [htier]))
    | supply _ _ hshort => exact absurd hshort (hsupplies _)
    | everyone => rfl

theorem take_filter_owns (ht : tier.Fits l) (hh : h ∈ tier.holders l) :
    ((Round.activeEdges tier.edges l).filter h.owns).take (h.remaining l).units =
      tier.firstEdges l h.side h.slot := by
  rw [firstEdges, Holder.remaining_eq]
  refine congrArg (List.take _) (List.filter_congr fun e he => ?_)
  rw [Bool.eq_iff_iff, ht.owns_iff hh (Round.mem_activeEdges.1 he).1, Edge.isAt_iff]

/-- The first holder of a kind is a member, and then it comes before all others of the kind in the
tier, or there is none among the members, and then it is the first supply slot of the kind. -/
theorem find?_holders {p : Holder → Bool} {P : Side → Nat → Prop}
    (hp : ∀ x ∈ tier.holders l, p x ↔ P x.side x.slot) (hfind : (tier.holders l).find? p = some h) :
    (∃ before m after, tier = before ++ m :: after ∧ h.side = .demand ∧ h.slot = m.demand ∧
      ∀ n ∈ before, ¬ P .demand n.demand) ∨
    (∀ m ∈ tier, ¬ P .demand m.demand) ∧ h.side = .supply ∧ ∀ t < h.slot, ¬ P .supply t := by
  have hmember : ∀ n ∈ tier.zipIdx, p (.member n.2 n.1.demand) ↔ P .demand n.1.demand := fun n hn =>
    hp _ (List.mem_append_left _ (List.mem_map.2 ⟨n, hn, rfl⟩))
  rw [holders, List.find?_append, Option.or_eq_some_iff, List.find?_map, List.find?_map,
    Option.map_eq_none_iff, Option.map_eq_some_iff, Option.map_eq_some_iff] at hfind
  rcases hfind with ⟨⟨m, i⟩, hm, rfl⟩ | ⟨hnone, s, hs, rfl⟩
  · obtain ⟨-, before, after, htier, hbefore⟩ := List.find?_eq_some_iff_append.1 hm
    refine .inl ⟨before.map Prod.fst, m, after.map Prod.fst, ?_, rfl, rfl, fun n hn => ?_⟩
    · have := congrArg (List.map Prod.fst) htier
      rwa [List.zipIdx_map_fst, List.map_append, List.map_cons] at this
    · obtain ⟨n', hn', rfl⟩ := List.mem_map.1 hn
      rw [← hmember n' (htier ▸ List.mem_append_left _ hn')]
      simpa using hbefore n' hn'
  · obtain ⟨-, hlt, hbefore⟩ := List.find?_range_eq_some.1 hs
    refine .inr ⟨fun m hm => ?_, rfl, fun t ht => ?_⟩
    · obtain ⟨i, hi⟩ := List.mem_iff_getElem?.1 hm
      have hi := List.mk_mem_zipIdx_iff_getElem?.2 hi
      rw [← hmember _ hi]
      exact List.find?_eq_none.1 hnone _ hi
    · have hmem : t ∈ List.range (l.size .supply) :=
        List.mem_range.2 (Nat.lt_trans ht (List.mem_range.1 hlt))
      have ht' := hp (.supply t) (List.mem_append_right _ (List.mem_map_of_mem hmem))
      have hno : p (.supply t) = false := by simpa using hbefore t ht
      exact fun hP => absurd (ht'.2 hP) (by simp [hno])

/-- The edges that get the next unit are those of the first who is short, in the order in which the
tier has its members and its group the supply. -/
theorem servesNext_recipients (ht : tier.Fits l) :
    tier.ServesNext l (Filling.recipients tier.edges (tier.holders l) l) := by
  have hp : ∀ x ∈ tier.holders l,
      decide ((x.remaining l).units < x.degree (Round.activeEdges tier.edges l)) ↔
        tier.Short l x.side x.slot := fun x hx => by rw [decide_eq_true_iff, short_iff ht hx]
  unfold Filling.recipients
  split
  · next hnone =>
    have hnone : ∀ side i, ¬ tier.Short l side i := fun side i hshort => by
      obtain ⟨x, hx, rfl, rfl⟩ := hshort.exists_holder ht
      exact List.find?_eq_none.1 hnone x hx ((hp x hx).2 hshort)
    exact .everyone (fun m _ => hnone .demand m.demand) (hnone .supply)
  · next x hfirst =>
    have hx := List.mem_of_find?_eq_some hfirst
    have hshort := (hp x hx).1 (by simpa using List.find?_some hfirst)
    rw [take_filter_owns ht hx]
    rcases find?_holders hp hfirst with
      ⟨before, m, after, htier, hside, hslot, hbefore⟩ | ⟨hmembers, hside, hbefore⟩
    · rw [hside, hslot] at hshort ⊢
      exact .member htier hbefore hshort
    · rw [hside] at hshort ⊢
      exact .supply hmembers hbefore hshort

/-! ### The whole tier -/

/-- The matches of a tier that is filled unit by unit, and the ledger it leaves. -/
def resolveUnitwise (tier : TierPlan) (l : Ledger) : List Match × Ledger :=
  let last := (Filling.start tier.edges l).serveAll tier.edges (tier.holders l)
  (pairs l tier.edges last.flows, last.ledger)

/-- Filling a tier by increments and splits comes to the same as filling it unit by unit. -/
theorem resolve_eq_resolveUnitwise (ht : tier.Fits l) :
    ((tier.resolve l).pairs, (tier.resolve l).ledger) = tier.resolveUnitwise l := by
  have hlast := Filling.serveAll_eq_run ht (Filling.balanced_start tier.edges l)
  rw [resolveUnitwise, hlast]
  rfl

theorem resolve_eq_resolveUnitwise_sample : sampleTier.Fits sampleLedger ∧
    (sampleTier.resolveUnitwise sampleLedger).1 = [⟨"a", "x", .clamp 4⟩, ⟨"a", "y", .clamp 2⟩,
      ⟨"b", "x", .clamp 3⟩, ⟨"b", "y", .clamp 2⟩] ∧
    ((sampleTier.resolve sampleLedger).pairs, (sampleTier.resolve sampleLedger).ledger) =
      sampleTier.resolveUnitwise sampleLedger :=
  ⟨fits_sample, by decide +kernel, resolve_eq_resolveUnitwise fits_sample⟩

end TierPlan
end FairShare
