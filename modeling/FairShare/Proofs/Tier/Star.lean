import FairShare.Proofs.Tier.Seniority
import FairShare.Proofs.Tier.Termination
import Mathlib.Algebra.GroupWithZero.Nat
import Mathlib.Algebra.Order.Group.Nat
import Mathlib.Algebra.Order.BigOperators.Group.List

/-!
# Tiers around one slot

If all edges of a tier lead from one slot to different slots on the other side (`TierPlan.Star`), the
tier fills these to a common level. `Filling.Poured` is the invariant: each slot around the hub has got
what it asks for, up to the level. An increment goes to all who ask for more, and raises the level. Who
is at the rim has one edge and so is never short, which leaves the hub to settle: it gives a unit more
to the first of those who ask for more than the level, and that ends the tier. What comes out are
`Rations` of what the hub holds (`TierPlan.resolve_rations`).
-/

namespace FairShare

/-! ### Rations -/

/-- Everybody gets what they ask for, up to a level, and of those who ask for more the first few get one
unit more than the level. -/
def shares (level : Nat) : Nat → List Nat → List Nat
  | _, [] => []
  | extra, asked :: rest =>
    if asked ≤ level then asked :: shares level extra rest
    else if extra = 0 then level :: shares level 0 rest
    else (level + 1) :: shares level (extra - 1) rest

/-- What is given out of a capacity: all that is asked for if there is enough, and otherwise shares that
use it up. -/
def Rations (capacity : Nat) (asked got : List Nat) : Prop :=
  (asked.sum ≤ capacity → got = asked) ∧
  (capacity < asked.sum → ∃ level extra, extra < asked.countP (level < ·) ∧
    got = shares level extra asked ∧ got.sum = capacity)

theorem sum_map_units (vs : List Volume) : (vs.map (·.units)).sum = unitsIn vs := by
  induction vs with
  | nil => rfl
  | cons v vs ih => rw [List.map_cons, List.sum_cons, ih, unitsIn]

theorem eq_of_sum_le {got asked : List Nat} (h : List.Forall₂ (· ≤ ·) got asked)
    (hs : asked.sum ≤ got.sum) : got = asked := by
  induction h with
  | nil => rfl
  | cons hle hrest ih =>
    have hsum := hrest.sum_le_sum
    rw [List.sum_cons, List.sum_cons] at hs
    rw [ih (by omega), Nat.le_antisymm hle (by omega)]

theorem shares_le (level extra : Nat) (asked : List Nat) :
    List.Forall₂ (· ≤ ·) (shares level extra asked) asked := by
  induction asked generalizing extra with
  | nil => exact .nil
  | cons a asked ih =>
    rw [shares]
    split
    · exact .cons (Nat.le_refl _) (ih _)
    · split <;> exact .cons (by omega) (ih _)

theorem shares_eq_self {level : Nat} {asked : List Nat} (h : ∀ a ∈ asked, a ≤ level) (extra : Nat) :
    shares level extra asked = asked := by
  induction asked with
  | nil => rfl
  | cons a asked ih =>
    obtain ⟨ha, hasked⟩ := List.forall_mem_cons.1 h
    rw [shares, if_pos ha, ih hasked]

/-- Shares that do not exceed a capacity ration it if they use it up or are all that is asked for. -/
theorem rations_shares {capacity level extra : Nat} {asked : List Nat}
    (hextra : 0 < extra → extra < asked.countP (level < ·))
    (hle : (shares level extra asked).sum ≤ capacity)
    (h : shares level extra asked = asked ∨ (shares level extra asked).sum = capacity) :
    Rations capacity asked (shares level extra asked) := by
  refine ⟨fun henough => ?_, fun hscarce => ?_⟩
  · rcases h with h | h
    · exact h
    · exact eq_of_sum_le (shares_le ..) (h ▸ henough)
  · have hne : shares level extra asked ≠ asked := fun heq => by
      rw [heq] at hle
      omega
    refine ⟨level, extra, ?_, rfl, h.resolve_left hne⟩
    rcases Nat.eq_zero_or_pos extra with rfl | hpos
    · refine Nat.pos_of_ne_zero fun h0 => hne (shares_eq_self (fun a ha => ?_) 0)
      simpa using List.countP_eq_zero.1 h0 a ha
    · exact hextra hpos

/-- The shares of the members of a list, each by itself. -/
theorem map_eq_shares {α : Type} [DecidableEq α] {as : List α} (hn : as.Nodup) {asked got : α → Nat}
    {level extra : Nat} (h : ∀ a ∈ as, got a = min (asked a) level +
      if a ∈ (as.filter (level < asked ·)).take extra then 1 else 0) :
    as.map got = shares level extra (as.map asked) := by
  induction as generalizing extra with
  | nil => rfl
  | cons a as ih =>
    obtain ⟨ha, hn⟩ := List.nodup_cons.1 hn
    obtain ⟨hfirst, hrest⟩ := List.forall_mem_cons.1 h
    have hnot : ∀ n, a ∉ (as.filter (level < asked ·)).take n := fun n hmem =>
      ha (List.mem_filter.1 (List.mem_of_mem_take hmem)).1
    have hne : ∀ b ∈ as, b ≠ a := fun b hb heq => ha (heq ▸ hb)
    rw [List.map_cons, List.map_cons, shares]
    by_cases hle : asked a ≤ level
    · have hfilter : (a :: as).filter (level < asked ·) = as.filter (level < asked ·) :=
        List.filter_cons_of_neg (by simpa using hle)
      rw [hfilter] at hfirst hrest
      rw [if_pos hle, hfirst, if_neg (hnot _), Nat.add_zero, Nat.min_eq_left hle, ih hn hrest]
    · have hfilter : (a :: as).filter (level < asked ·) = a :: as.filter (level < asked ·) :=
        List.filter_cons_of_pos (by simpa using hle)
      rw [hfilter] at hfirst hrest
      have hmore := Nat.le_of_not_le hle
      rw [if_neg hle]
      cases extra with
      | zero =>
        rw [List.take_zero] at hfirst hrest
        have hlevel : as.map got = shares level 0 (as.map asked) := ih hn hrest
        rw [hfirst, if_neg List.not_mem_nil, if_pos rfl, Nat.min_eq_right hmore, Nat.add_zero, hlevel]
      | succ extra =>
        rw [hfirst, if_pos (by simp), if_neg (Nat.succ_ne_zero _), Nat.min_eq_right hmore,
          Nat.add_sub_cancel, ih hn fun b hb => ?_]
        rw [hrest b hb]
        simp only [List.take_succ_cons, List.mem_cons, hne b hb, false_or]

example : shares 4 1 [2, 9, 9] = [2, 5, 4] := by decide

/-- Where the edges have different keys, the flow along those of one key is that of one edge. -/
theorem map_unitsAlong {edges : List Edge} {flows : List Volume} {key : Edge → Nat}
    (hn : (edges.map key).Nodup) (hlen : flows.length = edges.length) :
    edges.map (fun e => unitsAlong (key · == key e) (edges.zip flows)) = flows.map (·.units) := by
  induction edges generalizing flows with
  | nil => rw [List.length_eq_zero_iff.1 hlen]; rfl
  | cons e edges ih =>
    match flows, hlen with
    | v :: flows, hlen =>
      rw [List.map_cons, List.nodup_cons] at hn
      have hne : ∀ e' ∈ edges, key e ≠ key e' := fun e' he' heq =>
        hn.1 (heq ▸ List.mem_map_of_mem he')
      have hrest : edges.map (fun e' => unitsAlong (key · == key e') ((e :: edges).zip (v :: flows))) =
          edges.map fun e' => unitsAlong (key · == key e') (edges.zip flows) := by
        refine List.map_congr_left fun e' he' => ?_
        rw [List.zip_cons_cons, unitsAlong_cons, if_neg (by simpa using hne e' he'), Nat.zero_add]
      have hfirst : unitsAlong (key · == key e) (edges.zip flows) = 0 :=
        unitsAlong_eq_zero fun g hg hkey =>
          absurd (beq_iff_eq.1 hkey).symm (hne g.1 (List.of_mem_zip hg).1)
      rw [List.map_cons, hrest, ih hn.2 (by simpa using hlen), List.zip_cons_cons, unitsAlong_cons,
        hfirst, if_pos (by simp), Nat.add_zero, List.map_cons]

/-! ### Stars -/

/-- All edges lead from one slot to different slots on the other side, with nothing ahead of any. -/
structure TierPlan.Star (tier : TierPlan) (center rim : Side) (hub : Nat) : Prop where
  ne : rim ≠ center
  hub : ∀ e ∈ tier.edges, e.ends.get center = hub
  free : ∀ e ∈ tier.edges, e.ahead = []
  nodup : (tier.edges.map (·.ends.get rim)).Nodup

/-- What the slot at the rim holds. -/
def Edge.asks (l : Ledger) (rim : Side) (e : Edge) : Nat := (l.remaining rim (e.ends.get rim)).units

/-- The edges to slots that hold more than a level. -/
def TierPlan.above (tier : TierPlan) (l : Ledger) (rim : Side) (level : Nat) : List Edge :=
  tier.edges.filter (level < ·.asks l rim)

theorem TierPlan.mem_above {tier : TierPlan} {l : Ledger} {rim : Side} {level : Nat} {e : Edge} :
    e ∈ tier.above l rim level ↔ e ∈ tier.edges ∧ level < e.asks l rim := by
  rw [above, List.mem_filter, decide_eq_true_iff]

theorem TierPlan.above_sublist (tier : TierPlan) (l : Ledger) (rim : Side) (level : Nat) :
    (tier.above l rim level).Sublist tier.edges := List.filter_sublist

namespace TierPlan.Star
variable {tier : TierPlan} {l m : Ledger} {center rim : Side} {hub : Nat} {e : Edge}

theorem side_eq (hs : tier.Star center rim hub) (side : Side) : side = center ∨ side = rim := by
  have hne := hs.ne
  cases side <;> cases center <;> cases rim <;> simp_all

theorem isActive_iff (hs : tier.Star center rim hub) (he : e ∈ tier.edges) :
    e.isActive l ↔ l.isLive center hub ∧ l.isLive rim (e.ends.get rim) := by
  rw [Edge.isActive_iff, hs.free e he, ← hs.hub e he]
  constructor
  · rintro ⟨hlive, -⟩
    exact ⟨hlive center, hlive rim⟩
  · rintro ⟨hcenter, hrim⟩
    refine ⟨fun side => ?_, fun _ h => absurd h List.not_mem_nil⟩
    rcases hs.side_eq side with rfl | rfl
    · exact hcenter
    · exact hrim

/-- No two of the edges lead to the same slot. -/
theorem countP_isAt (hs : tier.Star center rim hub) {es : List Edge} (hsub : es.Sublist tier.edges)
    (he : e ∈ tier.edges) :
    es.countP (·.isAt rim (e.ends.get rim)) = if e ∈ es then 1 else 0 := by
  have hcount : es.countP (·.isAt rim (e.ends.get rim)) =
      (es.map (·.ends.get rim)).count (e.ends.get rim) := by
    rw [List.count, List.countP_map]
    rfl
  rw [hcount, List.Nodup.count (hs.nodup.sublist (hsub.map _))]
  refine if_congr ⟨fun h => ?_, fun h => List.mem_map_of_mem h⟩ rfl rfl
  obtain ⟨e', he', heq⟩ := List.mem_map.1 h
  exact List.inj_on_of_nodup_map hs.nodup (hsub.subset he') he heq ▸ he'

/-- Nobody but the hub can hold fewer units than it has active edges, and still some. -/
theorem isAt_of_settle (hs : tier.Star center rim hub) (ht : tier.Fits m) {x : Holder} {held : Volume}
    {d : Nat} (hr : Round.next? tier.edges (tier.holders m) l = some (.settle x held d)) :
    x.isAt center hub := by
  rcases Round.next?_cases hr with ⟨_, hc, -⟩ | ⟨_, hc, hshort⟩
  · cases hc
  cases hc
  obtain ⟨hx, hshort⟩ := Round.firstShort?_spec hshort
  have hactive : (Round.activeEdges tier.edges l).Sublist tier.edges := List.filter_sublist
  obtain ⟨e, he, ho⟩ := List.countP_pos_iff.1 (Nat.zero_lt_of_lt hshort)
  have hslot := Holder.ends_of_owns ho
  rcases hs.side_eq x.side with hside | hside
  · rw [hside, hs.hub e (hactive.subset he)] at hslot
    exact ⟨hside, hslot.symm⟩
  · have hlive := Filling.isLive_of_degree_pos (Nat.zero_lt_of_lt hshort)
    rw [Ledger.isLive_iff, ← Holder.remaining_eq] at hlive
    rw [ht.degree_eq hx, ← hslot, hside,
      hs.countP_isAt hactive (hactive.subset he), if_pos he] at hshort
    omega

end TierPlan.Star

namespace Filling
variable {tier : TierPlan} {l : Ledger} {f : Filling} {r : Round} {center rim : Side}
  {hub level extra : Nat}

/-- Every slot around the hub has got what it asks for, up to the level. Once the hub is exhausted, the
first few of those who ask for more may have got one unit more. -/
structure Poured (tier : TierPlan) (l : Ledger) (center rim : Side) (hub level extra : Nat)
    (f : Filling) : Prop where
  got : ∀ e ∈ tier.edges, f.along tier.edges (·.isAt rim (e.ends.get rim)) =
    min (e.asks l rim) level + if e ∈ (tier.above l rim level).take extra then 1 else 0
  spent : 0 < extra → extra < (tier.above l rim level).length ∧ ¬ f.ledger.isLive center hub

namespace Poured

theorem start (tier : TierPlan) (l : Ledger) (center rim : Side) (hub : Nat) :
    (Filling.start tier.edges l).Poured tier l center rim hub 0 0 := by
  refine ⟨fun e _ => ?_, fun h => absurd h (Nat.lt_irrefl 0)⟩
  rw [along_start, List.take_zero, if_neg (List.not_mem_nil), Nat.min_zero]

theorem got_of_zero (h : f.Poured tier l center rim hub level 0) {e : Edge} (he : e ∈ tier.edges) :
    f.along tier.edges (·.isAt rim (e.ends.get rim)) = min (e.asks l rim) level := by
  rw [h.got e he, List.take_zero, if_neg (List.not_mem_nil), Nat.add_zero]

/-- As long as the hub holds something, the edges to who asks for more than the level are active. -/
theorem activeEdges_eq (h : f.Poured tier l center rim hub level 0) (hs : tier.Star center rim hub)
    (hb : f.Balanced tier.edges l) (hlive : f.ledger.isLive center hub) :
    Round.activeEdges tier.edges f.ledger = tier.above l rim level := by
  refine List.filter_congr fun e he => ?_
  have hgot := h.got_of_zero he
  have hleft := hb.balance rim (e.ends.get rim)
  rw [Bool.eq_iff_iff, hs.isActive_iff he, and_iff_right hlive, Ledger.isLive_iff,
    decide_eq_true_iff]
  rw [Edge.asks] at hgot ⊢
  omega

section
variable (hs : tier.Star center rim hub) (ht : tier.Fits l) (hb : f.Balanced tier.edges l)
include hs ht hb

theorem apply_uniform (h : f.Poured tier l center rim hub level 0) {n : Nat} {increment : Volume}
    (hlive : f.ledger.isLive center hub)
    (hr : Round.next? tier.edges (tier.holders l) f.ledger = some (.uniform n increment)) :
    (f.apply tier.edges (.uniform n increment)).Poured tier l center rim hub
      (level + increment.units) 0 := by
  refine ⟨fun e he => ?_, fun h => absurd h (Nat.lt_irrefl 0)⟩
  have hgot := h.got_of_zero he
  have hleft := hb.balance rim (e.ends.get rim)
  have hgranted := hb.granted_le ht hr rim (e.ends.get rim)
  rw [Round.granted_uniform, h.activeEdges_eq hs hb hlive,
    hs.countP_isAt (tier.above_sublist l rim level) he] at hgranted
  rw [hb.along_apply ht hr, Round.granted_uniform, h.activeEdges_eq hs hb hlive,
    hs.countP_isAt (tier.above_sublist l rim level) he, List.take_zero, if_neg List.not_mem_nil]
  by_cases hmore : level < e.asks l rim
  · rw [if_pos (TierPlan.mem_above.2 ⟨he, hmore⟩)] at hgranted ⊢
    rw [Edge.asks] at hgot hmore ⊢
    omega
  · rw [if_neg fun hmem => hmore (TierPlan.mem_above.1 hmem).2]
    omega

theorem apply_settle (h : f.Poured tier l center rim hub level 0) {x : Holder} {held : Volume}
    {d : Nat} (hlive : f.ledger.isLive center hub)
    (hr : Round.next? tier.edges (tier.holders l) f.ledger = some (.settle x held d)) :
    (f.apply tier.edges (.settle x held d)).Poured tier l center rim hub level held.units := by
  have hat := hs.isAt_of_settle ht hr
  have hdead : ¬ (f.apply tier.edges (.settle x held d)).ledger.isLive center hub := by
    rw [← hat.1, ← hat.2]
    exact (exhausted_of_settle (hb.holders_eq tier ▸ hr)).2
  rcases Round.next?_cases hr with ⟨_, hc, -⟩ | ⟨_, hc, hshort⟩
  · cases hc
  cases hc
  obtain ⟨hx, hshort⟩ := Round.firstShort?_spec hshort
  have howns : (Round.activeEdges tier.edges f.ledger).filter x.owns = tier.above l rim level := by
    rw [h.activeEdges_eq hs hb hlive]
    refine List.filter_eq_self.2 fun e he => (ht.owns_iff hx (TierPlan.mem_above.1 he).1).2 ?_
    rw [hat.1, hat.2]
    exact hs.hub e (TierPlan.mem_above.1 he).1
  refine ⟨fun e he => ?_, fun _ => ⟨?_, hdead⟩⟩
  · have hsub := (List.take_sublist (x.remaining f.ledger).units _).trans
      (tier.above_sublist l rim level)
    rw [hb.along_apply ht hr, h.got_of_zero he, granted_settle_eq hshort, howns,
      hs.countP_isAt hsub he]
  · rwa [Holder.degree, List.countP_eq_length_filter, howns] at hshort

theorem apply (h : f.Poured tier l center rim hub level extra)
    (hr : Round.next? tier.edges (tier.holders l) f.ledger = some r) :
    ∃ level' extra', (f.apply tier.edges r).Poured tier l center rim hub level' extra' := by
  obtain ⟨e, he⟩ := List.exists_mem_of_ne_nil _ (Round.activeEdges_ne_nil hr)
  obtain ⟨he, hact⟩ := Round.mem_activeEdges.1 he
  have hlive := ((hs.isActive_iff he).1 hact).1
  obtain rfl : extra = 0 := Nat.eq_zero_of_not_pos fun hpos => (h.spent hpos).2 hlive
  cases r with
  | uniform n increment => exact ⟨_, _, h.apply_uniform hs ht hb hlive hr⟩
  | settle x held d => exact ⟨_, _, h.apply_settle hs ht hb hlive hr⟩

end
end Poured
end Filling

namespace TierPlan
variable {tier : TierPlan} {l : Ledger}

namespace Star
variable {center rim : Side} {hub : Nat}

theorem sum_along (hs : tier.Star center rim hub) {f : Filling}
    (hlen : f.flows.length = tier.edges.length) :
    (tier.edges.map fun e => f.along tier.edges (·.isAt rim (e.ends.get rim))).sum =
      f.along tier.edges (·.isAt center hub) := by
  have hall : ∀ g ∈ tier.edges.zip f.flows, g.1.isAt center hub := fun g hg =>
    Edge.isAt_iff.2 (hs.hub g.1 (List.of_mem_zip hg).1)
  have hflows : tier.edges.map (fun e => f.along tier.edges (·.isAt rim (e.ends.get rim))) =
      f.flows.map (·.units) := map_unitsAlong hs.nodup hlen
  rw [hflows, sum_map_units, Filling.along, unitsAlong_eq_unitsIn hall,
    List.map_snd_zip (Nat.le_of_eq hlen)]

theorem exchanged_eq (ht : tier.Fits l) (rim : Side) :
    (tier.edges.map (·.ends.get rim)).map
        (fun i => exchanged (tier.resolve l).pairs rim (l.id rim i)) =
      tier.edges.map fun e => (tier.fill l).2.along tier.edges (·.isAt rim (e.ends.get rim)) := by
  rw [List.map_map]
  refine List.map_congr_left fun e he => ?_
  rw [Function.comp_apply, pairs_resolve, exchanged_pairs ht (ht.lt_size he rim), Filling.along]

/-- The slots around the hub get rations of what it holds. -/
theorem rations (hs : tier.Star center rim hub) (ht : tier.Fits l) :
    Rations (l.remaining center hub).units
      ((tier.edges.map (·.ends.get rim)).map fun i => (l.remaining rim i).units)
      ((tier.edges.map (·.ends.get rim)).map fun i =>
        exchanged (tier.resolve l).pairs rim (l.id rim i)) := by
  obtain ⟨hb, level, extra, h⟩ := fill_spec ht
    (P := fun f => ∃ level extra, f.Poured tier l center rim hub level extra)
    ⟨0, 0, .start tier l center rim hub⟩ fun f r hb ⟨_, _, h⟩ hr => h.apply hs ht hb hr
  have hshares := map_eq_shares hs.nodup.of_map h.got
  have hasked : (tier.edges.map (·.ends.get rim)).map (fun i => (l.remaining rim i).units) =
      tier.edges.map (Edge.asks l rim) := List.map_map
  have hbalance := hb.balance center hub
  rw [← hs.sum_along hb.length, hshares] at hbalance
  rw [exchanged_eq ht, hshares, hasked]
  refine rations_shares (fun hpos => ?_) (by omega) ?_
  · rw [List.countP_map]
    exact Nat.lt_of_lt_of_eq (h.spent hpos).1 List.countP_eq_length_filter.symm
  · by_cases hlive : (tier.fill l).2.ledger.isLive center hub
    · -- no edge is active, so nobody asks for more than the level
      obtain rfl : extra = 0 := Nat.eq_zero_of_not_pos fun hpos => (h.spent hpos).2 hlive
      have hnone := (h.activeEdges_eq hs hb hlive).symm.trans (activeEdges_fill ht)
      refine .inl (shares_eq_self (fun a ha => ?_) 0)
      obtain ⟨e, he, rfl⟩ := List.mem_map.1 ha
      refine Nat.le_of_not_lt fun hmore => List.not_mem_nil (a := e) ?_
      rw [← hnone]
      exact mem_above.2 ⟨he, hmore⟩
    · rw [Ledger.not_isLive_iff] at hlive
      exact .inr (by omega)

end Star

theorem edges_of_targets {s : Nat} (h : ∀ m ∈ tier, m.targets = [[s]]) :
    tier.edges = tier.zipIdx.map fun m => ⟨m.2, m.1.demand, s, []⟩ := by
  rw [edges, List.map_eq_flatMap]
  refine List.flatMap_congr fun m hm => ?_
  rw [h m.1 (List.fst_mem_of_mem_zipIdx hm)]
  rfl

/-- A supply that is all that anybody in a tier wants is rationed to its members, and a demand that
wants several supplies equally to these. -/
theorem resolve_rations (ht : tier.Fits l) :
    (∀ s, (∀ m ∈ tier, m.targets = [[s]]) → Rations (l.remaining .supply s).units
      (tier.map fun m => (l.remaining .demand m.demand).units)
      (tier.map fun m => exchanged (tier.resolve l).pairs .demand (l.id .demand m.demand))) ∧
    ∀ d peers, tier = [⟨d, [peers]⟩] → Rations (l.remaining .demand d).units
      (peers.map fun s => (l.remaining .supply s).units)
      (peers.map fun s => exchanged (tier.resolve l).pairs .supply (l.id .supply s)) := by
  refine ⟨fun s h => ?_, fun d peers h => ?_⟩
  · have hslots : tier.edges.map (·.ends.get .demand) = tier.map (·.demand) := by
      have hmembers := congrArg (List.map (·.demand)) (List.zipIdx_map_fst 0 tier)
      rw [List.map_map] at hmembers
      rw [edges_of_targets h, List.map_map]
      exact hmembers
    have hends : ∀ e ∈ tier.edges, e.supply = s ∧ e.ahead = [] := fun e he => by
      rw [edges_of_targets h] at he
      obtain ⟨m, -, rfl⟩ := List.mem_map.1 he
      exact ⟨rfl, rfl⟩
    have hs : tier.Star .supply .demand s :=
      ⟨by decide, fun e he => (hends e he).1, fun e he => (hends e he).2, hslots ▸ ht.nodup_demand⟩
    have hrations := hs.rations ht
    rwa [hslots, List.map_map, List.map_map] at hrations
  · have hedges : tier.edges = peers.map fun s => ⟨0, d, s, []⟩ := by
      rw [h]
      simp [edges, edgesFrom]
    have hslots : tier.edges.map (·.ends.get .supply) = peers := by
      rw [hedges, List.map_map]
      exact List.map_id peers
    have hends : ∀ e ∈ tier.edges, e.demand = d ∧ e.ahead = [] := fun e he => by
      rw [hedges] at he
      obtain ⟨s, -, rfl⟩ := List.mem_map.1 he
      exact ⟨rfl, rfl⟩
    have hnodup : peers.Nodup := ht.nodup_peers ⟨d, [peers]⟩ (by simp [h]) peers (by simp)
    have hs : tier.Star .demand .supply d :=
      ⟨by decide, fun e he => (hends e he).1, fun e he => (hends e he).2, hslots.symm ▸ hnodup⟩
    have hrations := hs.rations ht
    rwa [hslots] at hrations

/-- Three members who want the same supply. -/
def sampleInward : TierPlan := [⟨0, [[0]]⟩, ⟨1, [[0]]⟩, ⟨2, [[0]]⟩]

/-- A member who wants three supplies equally. -/
def sampleOutward : TierPlan := [⟨3, [[1, 2, 3]]⟩]

def sampleHubs : Ledger where
  slots := ⟨[⟨"a", .clamp 2⟩, ⟨"b", .clamp 9⟩, ⟨"c", .clamp 9⟩, ⟨"d", .clamp 11⟩],
    [⟨"w", .clamp 11⟩, ⟨"x", .clamp 2⟩, ⟨"y", .clamp 9⟩, ⟨"z", .clamp 9⟩]⟩
  nodup
    | .demand => by decide
    | .supply => by decide

/-- Both times eleven units are rationed to 2, 5 and 4. -/
theorem resolve_rations_sample :
    (sampleInward.Fits sampleHubs ∧ (∀ m ∈ sampleInward, m.targets = [[0]])) ∧
    ["a", "b", "c"].map (exchanged (sampleInward.resolve sampleHubs).pairs .demand) = [2, 5, 4] ∧
    Rations 11 [2, 9, 9] (["a", "b", "c"].map
      (exchanged (sampleInward.resolve sampleHubs).pairs .demand)) ∧
    sampleOutward.Fits sampleHubs ∧
    ["x", "y", "z"].map (exchanged (sampleOutward.resolve sampleHubs).pairs .supply) = [2, 5, 4] ∧
    Rations 11 [2, 9, 9] (["x", "y", "z"].map
      (exchanged (sampleOutward.resolve sampleHubs).pairs .supply)) := by
  have hinward : sampleInward.Fits sampleHubs := by decide
  have houtward : sampleOutward.Fits sampleHubs := by decide
  have hsame : ∀ m ∈ sampleInward, m.targets = [[0]] := by decide
  refine ⟨⟨hinward, hsame⟩, by decide +kernel, (resolve_rations hinward).1 0 hsame, houtward,
    by decide +kernel, ?_⟩
  exact (resolve_rations houtward).2 3 [1, 2, 3] rfl

end TierPlan
end FairShare
