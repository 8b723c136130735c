import FairShare.Proofs.Tier.Component

/-!
# Parts of a tier that share no supply

The increment of a round is the least offer of the whole tier, and the holder that settles is the
first of the whole tier, so members that have nothing to do with each other change each other's
rounds. They do not change what comes of them. A part of a tier that shares no slot with the rest is
filled as if it was alone (`TierPlan.Component.shows`), on any ledger that holds the same in the slots
of the part. So two such parts may as well be resolved one after the other, in either order
(`TierPlan.resolve_interleaved`).
-/

namespace FairShare

/-- The third list consists of the first two, each in its order. -/
inductive Interleaves {α : Type} : List α → List α → List α → Prop
  | nil : Interleaves [] [] []
  | left {a : α} {as bs cs : List α} : Interleaves as bs cs → Interleaves (a :: as) bs (a :: cs)
  | right {b : α} {as bs cs : List α} : Interleaves as bs cs → Interleaves as (b :: bs) (b :: cs)

namespace Interleaves
variable {α : Type} {as bs cs : List α}

theorem symm (h : Interleaves as bs cs) : Interleaves bs as cs := by
  induction h with
  | nil => exact .nil
  | left _ ih => exact .right ih
  | right _ ih => exact .left ih

theorem perm (h : Interleaves as bs cs) : cs.Perm (as ++ bs) := by
  induction h with
  | nil => exact .refl _
  | left _ ih => exact ih.cons _
  | right _ ih => exact (ih.cons _).trans List.perm_middle.symm

theorem sublist (h : Interleaves as bs cs) : as.Sublist cs := by
  induction h with
  | nil => exact .slnil
  | left _ ih => exact ih.cons_cons _
  | right _ ih => exact ih.cons _

theorem filter_eq {p : α → Bool} (h : Interleaves as bs cs) (ha : ∀ a ∈ as, p a)
    (hb : ∀ b ∈ bs, ¬ p b) : cs.filter p = as := by
  induction h with
  | nil => rfl
  | left _ ih =>
    obtain ⟨hp, ha⟩ := List.forall_mem_cons.1 ha
    rw [List.filter_cons_of_pos hp, ih ha hb]
  | right _ ih =>
    obtain ⟨hp, hb⟩ := List.forall_mem_cons.1 hb
    rw [List.filter_cons_of_neg hp, ih ha hb]

end Interleaves

/-- The slot that a member is in, and those that it wants. -/
def Member.uses (m : Member) : Side → Nat → Bool
  | .demand, d => m.demand == d
  | .supply, s => m.targets.flatten.contains s

namespace TierPlan

def uses (tier : TierPlan) (side : Side) (i : Nat) : Bool := tier.any (·.uses side i)

variable {tier part whole a b : TierPlan} {l m : Ledger}

theorem uses_iff {side : Side} {i : Nat} : tier.uses side i ↔ ∃ m ∈ tier, m.uses side i := by
  rw [uses, List.any_eq_true]

theorem uses_demand_iff {d : Nat} : tier.uses .demand d ↔ ∃ m ∈ tier, m.demand = d := by
  simp only [uses_iff, Member.uses, beq_iff_eq]

theorem uses_supply_iff {s : Nat} : tier.uses .supply s ↔ ∃ m ∈ tier, s ∈ m.targets.flatten := by
  simp only [uses_iff, Member.uses, List.contains_iff_mem]

theorem mem_plainEdges {e : Edge} : e ∈ tier.plainEdges ↔
    ∃ m ∈ tier, e ∈ edgesFrom 0 m.demand [] m.targets := List.mem_flatMap

theorem mem_flatten_of_mem_edgesFrom {i d : Nat} {targets : List (List Nat)} {e : Edge}
    (he : e ∈ edgesFrom i d [] targets) :
    e.demand = d ∧ e.supply ∈ targets.flatten ∧ ∀ s ∈ e.ahead, s ∈ targets.flatten := by
  obtain ⟨before, peers, after, rfl, s, hs, rfl⟩ := mem_edgesFrom.1 he
  refine ⟨rfl, ?_, fun s' hs' => ?_⟩
  · simp [hs]
  · rw [List.flatten_append]
    exact List.mem_append_left _ hs'

/-- A slot that a tier does not use keeps what it holds. -/
theorem remaining_resolve_of_not_uses (ht : tier.Fits l) {side : Side} {i : Nat}
    (hi : ¬ tier.uses side i) : (tier.resolve l).ledger.remaining side i = l.remaining side i := by
  have hbalance := (balanced_fill ht).balance side i
  have hzero : (tier.fill l).2.along tier.edges (·.isAt side i) = 0 := by
    refine unitsAlong_eq_zero fun x hx hat => absurd ?_ hi
    obtain ⟨n, j, hn, -, hd, before, peers, after, htargets, hs, -⟩ :=
      exists_of_mem_edges (List.of_mem_zip hx).1
    have hmem : n ∈ tier := List.fst_mem_of_mem_zipIdx hn
    rw [Edge.isAt_iff] at hat
    rw [← hat]
    cases side with
    | demand => exact uses_demand_iff.2 ⟨n, hmem, hd.symm⟩
    | supply =>
      refine uses_supply_iff.2 ⟨n, hmem, ?_⟩
      rw [htargets]
      simp [Edge.ends, BySide.get, hs]
  rw [hzero, Nat.add_zero] at hbalance
  exact Volume.ext hbalance

/-- Some of the members of a tier, in their order, who share no slot with the others. -/
structure Component (part whole : TierPlan) : Prop where
  filter_eq : whole.filter (fun m => part.uses .demand m.demand) = part
  disjoint : ∀ m ∈ whole, ¬ part.uses .demand m.demand →
    ∀ s ∈ m.targets.flatten, ¬ part.uses .supply s

namespace Component

theorem mem (hc : part.Component whole) {n : Member} (hn : n ∈ whole)
    (hu : part.uses .demand n.demand) : n ∈ part := by
  rw [← hc.filter_eq]
  exact List.mem_filter.2 ⟨hn, hu⟩

theorem closed (hc : part.Component whole) : Closed part.uses whole.plainEdges := by
  intro e he
  obtain ⟨n, hn, he⟩ := mem_plainEdges.1 he
  obtain ⟨hd, hs, hahead⟩ := mem_flatten_of_mem_edgesFrom he
  by_cases hu : part.uses .demand n.demand
  · left
    have hpart := hc.mem hn hu
    refine ⟨fun side => ?_, fun s hs' => uses_supply_iff.2 ⟨n, hpart, hahead s hs'⟩⟩
    cases side with
    | demand => exact uses_demand_iff.2 ⟨n, hpart, hd.symm⟩
    | supply => exact uses_supply_iff.2 ⟨n, hpart, hs⟩
  · right
    intro side
    cases side with
    | demand => rw [← hd] at hu; exact hu
    | supply => exact hc.disjoint n hn hu _ hs

theorem filter_plainEdges (hc : part.Component whole) :
    whole.plainEdges.filter (·.within part.uses) = part.plainEdges := by
  have hflat : ∀ members : List Member,
      (members.flatMap fun n => edgesFrom 0 n.demand [] n.targets).filter (·.within part.uses) =
        (members.filter fun n => part.uses .demand n.demand).flatMap
          fun n => edgesFrom 0 n.demand [] n.targets := by
    intro members
    induction members with
    | nil => rfl
    | cons n members ih =>
      rw [List.flatMap_cons, List.filter_append, ih]
      have hdemand : ∀ e ∈ edgesFrom 0 n.demand [] n.targets,
          e.within part.uses = part.uses .demand n.demand := fun e he => by
        rw [Edge.within, (mem_flatten_of_mem_edgesFrom he).1]
      by_cases hu : part.uses .demand n.demand
      · rw [List.filter_cons, if_pos hu, List.flatMap_cons,
          List.filter_eq_self.2 fun e he => by rw [hdemand e he, hu]]
      · rw [List.filter_cons, if_neg hu,
          List.filter_eq_nil_iff.2 fun e he => by rwa [hdemand e he], List.nil_append]
  rw [plainEdges, hflat, hc.filter_eq, plainEdges]

theorem filter_plainHolders (hc : part.Component whole) (hsize : m.size .supply = l.size .supply) :
    (whole.plainHolders l).filter (·.within part.uses) = part.plainHolders m := by
  rw [plainHolders, List.filter_append, List.filter_map, List.filter_map, plainHolders, hsize]
  congr 1
  · exact congrArg (List.map _) hc.filter_eq
  · exact congrArg (List.map _) (List.filter_eq_self.2 fun s _ => rfl)

theorem fits (hc : part.Component whole) (ht : whole.Fits l) : part.Fits l := by
  have hsub : part.Sublist whole := hc.filter_eq ▸ List.filter_sublist
  exact ⟨fun n hn => ht.demand_lt n (hsub.subset hn),
    fun n hn => ht.supply_lt n (hsub.subset hn), ht.nodup_demand.sublist (hsub.map _),
    fun n hn => ht.nodup_peers n (hsub.subset hn)⟩

/-- The part is filled within the whole as it is alone. -/
theorem shows (hc : part.Component whole) (ht : whole.Fits l) (hids : ∀ side, m.ids side = l.ids side)
    (ha : l.AgreesOn part.uses m) :
    (whole.fill l).2.Shows part.uses whole.plainEdges (part.fill m).2 := by
  have hstart : (Filling.start whole.plainEdges l).Shows part.uses whole.plainEdges
      (.start part.plainEdges m) := by
    refine ⟨ha, ?_⟩
    rw [hc.filter_plainEdges, Filling.start, Filling.start, Filling.zip_map_self,
      Filling.zip_map_self, List.filter_map, ← hc.filter_plainEdges]
    rfl
  have hrun := hstart.serveAll hc.closed (whole.plainHolders l)
  rwa [hc.filter_plainEdges, hc.filter_plainHolders (Ledger.size_congr (hids .supply)),
    ← fill_plain ht, ← fill_plain ((hc.fits ht).congr hids)] at hrun

end Component

/-! ### Two parts -/

/-- No slot is used by both. -/
def Apart (a b : TierPlan) : Prop := ∀ side i, a.uses side i → ¬ b.uses side i

theorem Apart.symm (h : a.Apart b) : b.Apart a := fun side i hb ha => h side i ha hb

theorem Fits.apart (ht : whole.Fits l) (hi : Interleaves a b whole)
    (hd : ∀ m ∈ a, ∀ n ∈ b, ∀ s ∈ m.targets.flatten, s ∉ n.targets.flatten) : a.Apart b := by
  intro side i ha hb
  cases side with
  | demand =>
    obtain ⟨m, hm, hmi⟩ := uses_demand_iff.1 ha
    obtain ⟨n, hn, hni⟩ := uses_demand_iff.1 hb
    have hnodup := (hi.perm.map (·.demand)).nodup_iff.1 ht.nodup_demand
    rw [List.map_append, List.nodup_append] at hnodup
    exact hnodup.2.2 _ (List.mem_map_of_mem hm) _ (List.mem_map_of_mem hn) (hmi.trans hni.symm)
  | supply =>
    obtain ⟨m, hm, hmi⟩ := uses_supply_iff.1 ha
    obtain ⟨n, hn, hni⟩ := uses_supply_iff.1 hb
    exact hd m hm n hn i hmi hni

theorem Apart.component (h : a.Apart b) (hi : Interleaves a b whole) : a.Component whole where
  filter_eq := by
    refine hi.filter_eq (fun m hm => uses_demand_iff.2 ⟨m, hm, rfl⟩) fun n hn ha => ?_
    exact h .demand n.demand ha (uses_demand_iff.2 ⟨n, hn, rfl⟩)
  disjoint := by
    intro n hn hu s hs ha
    rcases List.mem_append.1 (hi.perm.subset hn) with hna | hnb
    · exact hu (uses_demand_iff.2 ⟨n, hna, rfl⟩)
    · exact h .supply s ha (uses_supply_iff.2 ⟨n, hnb, hs⟩)

theorem uses_of_interleaves (hi : Interleaves a b whole) {side : Side} {i : Nat}
    (hu : whole.uses side i) : a.uses side i ∨ b.uses side i := by
  obtain ⟨n, hn, hni⟩ := uses_iff.1 hu
  exact (List.mem_append.1 (hi.perm.subset hn)).imp (fun h => uses_iff.2 ⟨n, h, hni⟩)
    fun h => uses_iff.2 ⟨n, h, hni⟩

/-- An edge of the whole lies within exactly one of the parts. -/
theorem Apart.within_eq (h : a.Apart b) (hi : Interleaves a b whole) {e : Edge}
    (he : e ∈ whole.plainEdges) : e.within b.uses = !e.within a.uses := by
  obtain ⟨n, hn, he⟩ := mem_plainEdges.1 he
  have hd : n.demand = e.demand := (mem_flatten_of_mem_edgesFrom he).1.symm
  rcases uses_of_interleaves hi (uses_demand_iff.2 ⟨n, hn, hd⟩) with ha | hb
  · rw [Edge.within, Edge.within, ha, Bool.eq_false_iff.2 (h .demand _ ha)]
    rfl
  · rw [Edge.within, Edge.within, hb, Bool.eq_false_iff.2 (h.symm .demand _ hb)]
    rfl

/-- The second of two parts finds its slots as they were before the first. -/
theorem Apart.agreesOn (h : a.Apart b) (ha : a.Fits l) :
    l.AgreesOn b.uses (a.resolve l).ledger := fun side i hb =>
  (remaining_resolve_of_not_uses ha (h.symm side i hb)).symm

theorem ledger_resolve_of_apart (ht : whole.Fits l) (hi : Interleaves a b whole) (h : a.Apart b) :
    (b.resolve (a.resolve l).ledger).ledger = (whole.resolve l).ledger := by
  have hca := h.component hi
  have hcb := h.symm.component hi.symm
  have ha := hca.fits ht
  have hb := (hcb.fits ht).resolve ha
  have hmid := (books_resolve ha).ids_eq
  refine Ledger.ext_remaining (fun side => ?_) fun side i => congrArg Volume.units ?_
  · rw [(books_resolve hb).ids_eq, hmid, (books_resolve ht).ids_eq]
  · by_cases hub : b.uses side i
    · exact ((hcb.shows ht hmid (h.agreesOn ha)).agrees side i hub).symm
    rw [remaining_resolve_of_not_uses hb hub]
    by_cases hua : a.uses side i
    · exact ((hca.shows ht (fun _ => rfl) fun _ _ _ => rfl).agrees side i hua).symm
    have hu : ¬ whole.uses side i := fun hu => (uses_of_interleaves hi hu).elim hua hub
    rw [remaining_resolve_of_not_uses ha hua, remaining_resolve_of_not_uses ht hu]

theorem pairs_resolve_of_apart (ht : whole.Fits l) (hi : Interleaves a b whole) (h : a.Apart b) :
    (whole.resolve l).pairs.Perm
      ((a.resolve l).pairs ++ (b.resolve (a.resolve l).ledger).pairs) := by
  have hca := h.component hi
  have hcb := h.symm.component hi.symm
  have ha := hca.fits ht
  have hmid := (books_resolve ha).ids_eq
  have htableA := (hca.shows ht (fun _ => rfl) fun _ _ _ => rfl).table
  have htableB := (hcb.shows ht hmid (h.agreesOn ha)).table
  rw [hca.filter_plainEdges] at htableA
  rw [hcb.filter_plainEdges] at htableB
  have hnot : (whole.plainEdges.zip (whole.fill l).2.flows).filter (fun x => !x.1.within a.uses) =
      (whole.plainEdges.zip (whole.fill l).2.flows).filter fun x => x.1.within b.uses :=
    List.filter_congr fun x hx => (h.within_eq hi (List.of_mem_zip hx).1).symm
  have hperm := List.filter_append_perm (fun x => x.1.within a.uses)
    (whole.plainEdges.zip (whole.fill l).2.flows)
  rw [hnot, ← htableA, ← htableB] at hperm
  rw [pairs_resolve_plain, pairs_resolve_plain, pairs_resolve_plain, pairs_congr hmid, pairs, pairs,
    pairs, ← List.filterMap_append]
  exact hperm.symm.filterMap _

/-- Two parts of a tier that share no supply do not influence each other: the tier leaves the ledger
that they leave one after the other, in either order, and makes the same matches. -/
theorem resolve_interleaved (ht : whole.Fits l) (hi : Interleaves a b whole)
    (hd : ∀ m ∈ a, ∀ n ∈ b, ∀ s ∈ m.targets.flatten, s ∉ n.targets.flatten) :
    ((b.resolve (a.resolve l).ledger).ledger = (whole.resolve l).ledger ∧
      (whole.resolve l).pairs.Perm
        ((a.resolve l).pairs ++ (b.resolve (a.resolve l).ledger).pairs)) ∧
    ((a.resolve (b.resolve l).ledger).ledger = (whole.resolve l).ledger ∧
      (whole.resolve l).pairs.Perm
        ((b.resolve l).pairs ++ (a.resolve (b.resolve l).ledger).pairs)) := by
  have h := ht.apart hi hd
  exact ⟨⟨ledger_resolve_of_apart ht hi h, pairs_resolve_of_apart ht hi h⟩,
    ledger_resolve_of_apart ht hi.symm h.symm, pairs_resolve_of_apart ht hi.symm h.symm⟩

/-- Supply for two who share some of it and for a third who shares none. -/
def threeByThree : Ledger where
  slots := ⟨[⟨"a", .clamp 9⟩, ⟨"b", .clamp 5⟩, ⟨"c", .clamp 6⟩],
    [⟨"x", .clamp 4⟩, ⟨"y", .clamp 7⟩, ⟨"z", .clamp 3⟩]⟩
  nodup
    | .demand => by decide
    | .supply => by decide

theorem resolve_interleaved_sample :
    let a : TierPlan := [⟨0, [[0, 1]]⟩, ⟨2, [[1]]⟩]
    let b : TierPlan := [⟨1, [[2]]⟩]
    let whole : TierPlan := [⟨0, [[0, 1]]⟩, ⟨1, [[2]]⟩, ⟨2, [[1]]⟩]
    let l := threeByThree
    (whole.Fits l ∧ Interleaves a b whole) ∧
    (a.resolve l).pairs = [⟨"a", "x", .clamp 4⟩, ⟨"a", "y", .clamp 4⟩, ⟨"c", "y", .clamp 3⟩] ∧
    (b.resolve l).pairs = [⟨"b", "z", .clamp 3⟩] ∧
    (whole.resolve l).pairs = [⟨"a", "x", .clamp 4⟩, ⟨"a", "y", .clamp 4⟩, ⟨"b", "z", .clamp 3⟩,
      ⟨"c", "y", .clamp 3⟩] ∧
    ((b.resolve (a.resolve l).ledger).ledger = (whole.resolve l).ledger ∧
      (whole.resolve l).pairs.Perm
        ((a.resolve l).pairs ++ (b.resolve (a.resolve l).ledger).pairs)) ∧
    ((a.resolve (b.resolve l).ledger).ledger = (whole.resolve l).ledger ∧
      (whole.resolve l).pairs.Perm
        ((b.resolve l).pairs ++ (a.resolve (b.resolve l).ledger).pairs)) := by
  intro a b whole l
  have hfits : whole.Fits l := by decide
  have hi : Interleaves a b whole := .left (.right (.left .nil))
  exact ⟨⟨hfits, hi⟩, by decide +kernel, by decide +kernel, by decide +kernel,
    resolve_interleaved hfits hi (by decide)⟩

end TierPlan
end FairShare
