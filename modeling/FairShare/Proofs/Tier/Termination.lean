import FairShare.Proofs.Tier.Exhaustion

/-!
# How many rounds a tier takes

Of any two rounds in a row one exhausts somebody who had active edges before them
(`Filling.exists_exhausted`): a settlement does, and an increment that does not leaves the active
edges as they are and somebody short, so that the next round is a settlement. Who is exhausted stays
so. The rounds are therefore at most twice as many as those who hold anything at the start
(`Filling.length_run_le`).
-/

namespace FairShare

theorem countP_lt_countP {α : Type} {p q : α → Bool} {as : List α} (hpq : ∀ a ∈ as, p a → q a)
    {a : α} (ha : a ∈ as) (hp : ¬ p a) (hq : q a) : as.countP p < as.countP q := by
  induction as with
  | nil => cases ha
  | cons b as ih =>
    obtain ⟨hb, has⟩ := List.forall_mem_cons.1 hpq
    rcases List.mem_cons.1 ha with rfl | ha
    · rw [List.countP_cons_of_neg hp, List.countP_cons_of_pos hq]
      exact Nat.lt_succ_of_le (List.countP_mono_left has)
    · have := ih has ha
      by_cases hpb : p b
      · rw [List.countP_cons_of_pos hpb, List.countP_cons_of_pos (hb hpb)]; omega
      · rw [List.countP_cons_of_neg hpb, List.countP_cons]; omega

namespace Filling

section
variable (edges : List Edge) (holders : List Holder)

/-- The filling after so many rounds, if there are as many. -/
def after? : Nat → Filling → Option Filling
  | 0, f => some f
  | n + 1, f => (f.step edges holders).bind fun s => after? n s.2

variable {edges holders} {f g : Filling} {r : Round}

theorem after?_succ_of_some (hr : Round.next? edges holders f.ledger = some r) (n : Nat) :
    after? edges holders (n + 1) f = after? edges holders n (f.apply edges r) := by
  rw [after?, step_eq_some_iff.2 ⟨hr, rfl⟩]; rfl

theorem exists_next_of_after? {n : Nat} (h : after? edges holders (n + 1) f = some g) :
    ∃ r, Round.next? edges holders f.ledger = some r := by
  cases hr : Round.next? edges holders f.ledger with
  | some r => exact ⟨r, rfl⟩
  | none => rw [after?, step_eq_none_iff.2 hr] at h; cases h

theorem after?_run (f : Filling) : after? edges holders (f.run edges holders).1.length f =
    some (f.run edges holders).2 := by
  fun_induction run edges holders f with
  | case1 f h => rfl
  | case2 f r next h rounds last hrun ih =>
    obtain ⟨hr, rfl⟩ := step_eq_some_iff.1 h
    rw [List.length_cons, after?_succ_of_some hr]
    rwa [hrun] at ih

theorem after?_add (n k : Nat) (f : Filling) : after? edges holders (n + k) f =
    (after? edges holders n f).bind (after? edges holders k) := by
  induction n generalizing f with
  | zero => rw [Nat.zero_add]; rfl
  | succ n ih =>
    rw [Nat.succ_add, after?, after?, Option.bind_assoc]
    exact congrArg _ (funext fun s => ih s.2)

end

variable {tier : TierPlan} {l : Ledger} {f g : Filling} {r r' : Round}

/-- An increment that exhausts nobody is followed by a settlement. -/
theorem settles_of_uniform (ht : tier.Fits f.ledger) {n : Nat} {increment : Volume}
    (hr : Round.next? tier.edges (tier.holders f.ledger) f.ledger = some (.uniform n increment))
    (hactive : Round.activeEdges tier.edges (f.apply tier.edges (.uniform n increment)).ledger =
      Round.activeEdges tier.edges f.ledger)
    (hr' : Round.next? tier.edges (tier.holders f.ledger)
      (f.apply tier.edges (.uniform n increment)).ledger = some r') :
    ∃ h held d, r' = .settle h held d := by
  cases r' with
  | settle h held d => exact ⟨h, held, d, rfl⟩
  | uniform n' increment' =>
    obtain ⟨h, hh, hd, hbound⟩ := Round.exists_bound ht hr
    have hleft := remaining_apply_uniform ht hh n increment
    rw [← Holder.remaining_eq] at hleft
    have hpos := Round.increment_pos hr'
    have hle := Round.increment_mul_le hr' hh (hactive ▸ hd)
    rw [hactive, hleft] at hle
    have hone := Nat.le_mul_of_pos_left (h.degree (Round.activeEdges tier.edges f.ledger)) hpos
    rw [Nat.add_mul, Nat.one_mul] at hbound
    omega

theorem isLive_of_degree_pos {edges : List Edge} {h : Holder}
    (hd : 0 < h.degree (Round.activeEdges edges l)) : l.isLive h.side h.slot := by
  obtain ⟨e, he, ho⟩ := List.countP_pos_iff.1 hd
  rw [← Holder.ends_of_owns ho]
  exact (Edge.isActive_iff.1 (Round.mem_activeEdges.1 he).2).1 h.side

theorem exhausted_of_settle {h : Holder} {held : Volume} {d : Nat}
    (hr : Round.next? tier.edges (tier.holders f.ledger) f.ledger = some (.settle h held d)) :
    (h ∈ tier.holders f.ledger ∧ 0 < h.degree (Round.activeEdges tier.edges f.ledger)) ∧
      ¬ (f.apply tier.edges (.settle h held d)).ledger.isLive h.side h.slot := by
  refine ⟨?_, ?_⟩
  · rcases Round.next?_cases hr with ⟨_, hc, -⟩ | ⟨_, hc, hs⟩
    · cases hc
    · cases hc
      obtain ⟨hh, hshort⟩ := Round.firstShort?_spec hs
      exact ⟨hh, Nat.zero_lt_of_lt hshort⟩
  · rw [Ledger.not_isLive_iff, remaining_apply, Round.settle_exhausts hr, Nat.sub_self]

/-- Two rounds in a row exhaust somebody who had active edges before them. -/
theorem exists_exhausted (ht : tier.Fits f.ledger)
    (hr : Round.next? tier.edges (tier.holders f.ledger) f.ledger = some r)
    (hr' : Round.next? tier.edges (tier.holders f.ledger) (f.apply tier.edges r).ledger = some r') :
    ∃ h ∈ tier.holders f.ledger, 0 < h.degree (Round.activeEdges tier.edges f.ledger) ∧
      f.ledger.isLive h.side h.slot ∧
      ¬ ((f.apply tier.edges r).apply tier.edges r').ledger.isLive h.side h.slot := by
  suffices hex : ∃ h ∈ tier.holders f.ledger,
      0 < h.degree (Round.activeEdges tier.edges f.ledger) ∧
      ¬ ((f.apply tier.edges r).apply tier.edges r').ledger.isLive h.side h.slot by
    obtain ⟨h, hh, hd, hdead⟩ := hex
    exact ⟨h, hh, hd, isLive_of_degree_pos hd, hdead⟩
  cases r with
  | settle h held d =>
    obtain ⟨⟨hh, hd⟩, hdead⟩ := exhausted_of_settle hr
    exact ⟨h, hh, hd, not_isLive_apply r' hdead⟩
  | uniform n increment =>
    by_cases hlive : ∀ h ∈ tier.holders f.ledger,
        0 < h.degree (Round.activeEdges tier.edges f.ledger) →
        (f.apply tier.edges (.uniform n increment)).ledger.isLive h.side h.slot
    · have hactive := activeEdges_apply ht hlive
      obtain ⟨h, held, d, rfl⟩ := settles_of_uniform ht hr hactive hr'
      rw [← holders_apply tier f (.uniform n increment)] at hr' ⊢
      obtain ⟨⟨hh, hd⟩, hdead⟩ := exhausted_of_settle hr'
      exact ⟨h, hh, hactive ▸ hd, hdead⟩
    · obtain ⟨h, hh⟩ := Classical.not_forall.1 hlive
      obtain ⟨hmem, hh⟩ := Classical.not_imp.1 hh
      obtain ⟨hd, hdead⟩ := Classical.not_imp.1 hh
      exact ⟨h, hmem, hd, not_isLive_apply r' hdead⟩

/-! ### Counting -/

/-- How many of some holders hold anything. -/
def live (holders : List Holder) (f : Filling) : Nat :=
  holders.countP fun h => f.ledger.isLive h.side h.slot

theorem live_apply_apply_lt (ht : tier.Fits l) (hb : f.Balanced tier.edges l)
    (hr : Round.next? tier.edges (tier.holders l) f.ledger = some r)
    (hr' : Round.next? tier.edges (tier.holders l) (f.apply tier.edges r).ledger = some r') :
    live (tier.holders l) ((f.apply tier.edges r).apply tier.edges r') <
      live (tier.holders l) f := by
  rw [hb.holders_eq tier] at hr hr' ⊢
  obtain ⟨h, hh, -, hlive, hdead⟩ := exists_exhausted (hb.fits ht) hr hr'
  refine countP_lt_countP (fun h' _ h'' => ?_) hh hdead hlive
  exact (drainsTo_apply tier.edges f r).isLive ((drainsTo_apply tier.edges _ r').isLive h'')

theorem live_pos (ht : tier.Fits l)
    (hr : Round.next? tier.edges (tier.holders l) f.ledger = some r) :
    0 < live (tier.holders l) f := by
  obtain ⟨e, he⟩ := List.exists_mem_of_ne_nil _ (Round.activeEdges_ne_nil hr)
  obtain ⟨s, hs, ho, -⟩ := ht.exists_holder (Round.mem_activeEdges.1 he).1 .supply
  exact List.countP_pos_iff.2 ⟨s, hs, isLive_of_degree_pos (List.countP_pos_iff.2 ⟨e, he, ho⟩)⟩

/-- At most two rounds for everybody who holds anything. -/
theorem length_run_le (ht : tier.Fits l) (k : Nat) (hb : f.Balanced tier.edges l)
    (hk : live (tier.holders l) f ≤ k) : (f.run tier.edges (tier.holders l)).1.length ≤ 2 * k := by
  -- two rounds at a time, on the number of those who hold anything
  induction k generalizing f with
  | zero =>
    cases hr : Round.next? tier.edges (tier.holders l) f.ledger with
    | none => rw [run_eq_of_none hr]; exact Nat.le_refl 0
    | some r => have := live_pos ht hr; omega
  | succ k ih =>
    cases hr : Round.next? tier.edges (tier.holders l) f.ledger with
    | none => rw [run_eq_of_none hr]; exact Nat.zero_le _
    | some r =>
      rw [run_eq_of_some hr]
      cases hr' : Round.next? tier.edges (tier.holders l) (f.apply tier.edges r).ledger with
      | none => rw [run_eq_of_none hr', List.length_singleton]; omega
      | some r' =>
        rw [run_eq_of_some hr']
        have hb' := (hb.apply ht hr).apply ht hr'
        have hlt := live_apply_apply_lt ht hb hr hr'
        have := ih hb' (by omega)
        simp only [List.length_cons]
        omega

theorem Balanced.after? {n : Nat} (hb : f.Balanced tier.edges l) (ht : tier.Fits l)
    (h : after? tier.edges (tier.holders l) n f = some g) : g.Balanced tier.edges l := by
  induction n generalizing f with
  | zero =>
    cases h
    exact hb
  | succ n ih =>
    obtain ⟨r, hr⟩ := exists_next_of_after? h
    rw [after?_succ_of_some hr] at h
    exact ih (hb.apply ht hr) h

theorem exists_exhausted_of_after? (ht : tier.Fits l) (hb : f.Balanced tier.edges l) {n : Nat}
    (h : after? tier.edges (tier.holders l) (n + 2) f = some g) :
    ∃ f', after? tier.edges (tier.holders l) n f = some f' ∧ ∃ h ∈ tier.holders l,
      0 < h.degree (Round.activeEdges tier.edges f'.ledger) ∧ f'.ledger.isLive h.side h.slot ∧
      ¬ g.ledger.isLive h.side h.slot := by
  rw [after?_add] at h
  obtain ⟨f', hf', h⟩ := Option.bind_eq_some_iff.1 h
  have hb' := hb.after? ht hf'
  obtain ⟨r, hr⟩ := exists_next_of_after? h
  rw [after?_succ_of_some hr] at h
  obtain ⟨r', hr'⟩ := exists_next_of_after? h
  rw [after?_succ_of_some hr'] at h
  cases h
  refine ⟨f', hf', ?_⟩
  rw [hb'.holders_eq tier] at hr hr' ⊢
  exact exists_exhausted (hb'.fits ht) hr hr'

end Filling

namespace TierPlan
variable {tier : TierPlan} {l : Ledger}

/-- The filling of a tier after so many rounds, if there are as many. -/
def stage (tier : TierPlan) (l : Ledger) (n : Nat) : Option Filling :=
  Filling.after? tier.edges (tier.holders l) n (.start tier.edges l)

theorem live_start (tier : TierPlan) (l : Ledger) :
    Filling.live (tier.holders l) (.start tier.edges l) =
      tier.countP (fun m => l.isLive .demand m.demand) +
        (List.range (l.size .supply)).countP (l.isLive .supply) := by
  have hmembers : tier.countP (fun m => l.isLive .demand m.demand) =
      (tier.zipIdx.map Prod.fst).countP fun m => l.isLive .demand m.demand := by
    rw [List.zipIdx_map_fst]
  rw [Filling.live, holders, List.countP_append, List.countP_map, List.countP_map, hmembers,
    List.countP_map]
  rfl

/-- A tier is full after the rounds it is said to take. Every two of them in a row exhaust somebody
who was active before them, and they are at most twice as many as the members and the supply slots
that held anything at the start. -/
theorem resolve_terminates (ht : tier.Fits l) :
    (∃ last, tier.stage l (tier.resolve l).rounds.length = some last ∧
      last.ledger = (tier.resolve l).ledger ∧
      Round.activeEdges tier.edges last.ledger = [] ∧
      tier.stage l ((tier.resolve l).rounds.length + 1) = none) ∧
    (∀ n g, tier.stage l (n + 2) = some g → ∃ f, tier.stage l n = some f ∧
      ∃ h ∈ tier.holders l, 0 < h.degree (Round.activeEdges tier.edges f.ledger) ∧
        f.ledger.isLive h.side h.slot ∧ ¬ g.ledger.isLive h.side h.slot) ∧
    (tier.resolve l).rounds.length ≤
      2 * (tier.countP (fun m => l.isLive .demand m.demand) +
        (List.range (l.size .supply)).countP (l.isLive .supply)) := by
  have hb := Filling.balanced_start tier.edges l
  have hlast : Round.next? tier.edges (tier.holders l) (tier.fill l).2.ledger = none := by
    have hfull := balanced_fill ht
    rw [hfull.holders_eq tier]
    exact (Round.next?_eq_none_iff (hfull.fits ht)).2 (activeEdges_fill ht)
  refine ⟨⟨(tier.fill l).2, Filling.after?_run _, rfl, activeEdges_fill ht, ?_⟩,
    fun n g h => Filling.exists_exhausted_of_after? ht hb h, ?_⟩
  · show Filling.after? tier.edges (tier.holders l) ((tier.fill l).1.length + 1) _ = none
    rw [Filling.after?_add, fill, Filling.after?_run, Option.bind_some, Filling.after?]
    rw [fill] at hlast
    rw [Filling.step_eq_none_iff.2 hlast]
    rfl
  · rw [← live_start]
    exact Filling.length_run_le ht _ hb (Nat.le_refl _)

/-- Both members and both supply slots hold something at the start. -/
theorem resolve_terminates_sample : sampleTier.Fits sampleLedger ∧
    (∃ f g, sampleTier.stage sampleLedger 0 = some f ∧ sampleTier.stage sampleLedger 2 = some g ∧
      ∃ h ∈ sampleTier.holders sampleLedger,
        0 < h.degree (Round.activeEdges sampleTier.edges f.ledger) ∧
        f.ledger.isLive h.side h.slot ∧ ¬ g.ledger.isLive h.side h.slot) ∧
    (sampleTier.resolve sampleLedger).rounds.length = 4 ∧
    (sampleTier.resolve sampleLedger).rounds.length ≤ 2 * (2 + 2) := by
  obtain ⟨-, htwo, hbound⟩ := resolve_terminates fits_sample
  have hstage : (sampleTier.stage sampleLedger 2).isSome := by decide +kernel
  obtain ⟨g, hg⟩ := Option.isSome_iff_exists.1 hstage
  obtain ⟨f, hf, hexhausted⟩ := htwo 0 g hg
  exact ⟨fits_sample, ⟨f, g, hf, hg, hexhausted⟩, by decide +kernel, hbound⟩

end TierPlan
end FairShare
