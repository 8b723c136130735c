import FairShare.Proofs.Plan.Violations

/-!
# Pruned forests

`Forest.prune` takes out of a forest what nobody knows: the unknown demand nodes with all that is
under them, and the unknown leaves under the others. A target that is no leaf stays, known or not,
because it is a fault under either policy. To plan leniently is to prune first and then to plan
strictly, also where planning ends in a fault (`Plan.resolve_lenient`). The two planners go through a
list side by side: what pruning takes out is what the lenient one passes over.
-/

namespace FairShare

/-- Targets that pruning leaves where they are. -/
def Groups.keepsTarget (groups : Groups) (target : Node) : Bool :=
  !target.isLeaf || groups.knows .supply target.id

section
variable (groups : Groups)

/-- A leaf remains one, and sub-tiers remain even if nothing is left in them. -/
def Node.prune (n : Node) : Node :=
  { n with priority := n.priority.map fun subTiers =>
      subTiers.map fun sub => sub.filter groups.keepsTarget }

def Tier.prune (tier : Tier) : Tier :=
  (tier.filter fun n => groups.knows .demand n.id).map (Node.prune groups)

def Forest.prune (forest : Forest) : Forest := forest.map (Tier.prune groups)

/-- No demand node and no leaf under one has an unknown id. -/
def Forest.Known (forest : Forest) : Prop :=
  ∀ tier ∈ forest, ∀ n ∈ tier, groups.knows .demand n.id ∧
    ∀ sub ∈ n.subTiers, ∀ t ∈ sub, t.isLeaf → groups.knows .supply t.id

instance (forest : Forest) : Decidable (forest.Known groups) :=
  inferInstanceAs (Decidable (∀ tier ∈ forest, ∀ n ∈ tier, groups.knows .demand n.id ∧
    ∀ sub ∈ n.subTiers, ∀ t ∈ sub, t.isLeaf → groups.knows .supply t.id))

end

theorem Node.subTiers_prune (groups : Groups) (n : Node) :
    (n.prune groups).subTiers = n.subTiers.map fun sub => sub.filter groups.keepsTarget := by
  rw [subTiers, subTiers, prune]
  cases n.priority <;> rfl

theorem Node.prune_eq {groups : Groups} {n : Node}
    (h : ∀ sub ∈ n.subTiers, ∀ t ∈ sub, t.isLeaf → groups.knows .supply t.id) :
    n.prune groups = n := by
  obtain ⟨id, priority⟩ := n
  cases priority with
  | none => rfl
  | some subTiers =>
    have hkeep : ∀ sub ∈ subTiers, sub.filter groups.keepsTarget = sub := fun sub hs =>
      List.filter_eq_self.2 fun t ht => by
        cases hleaf : t.isLeaf with
        | false => simp [Groups.keepsTarget, hleaf]
        | true => simp [Groups.keepsTarget, h sub hs t ht hleaf]
    rw [prune, Option.map_some, List.map_congr_left hkeep, List.map_id']

/-- There is nothing to prune where everything is known. -/
theorem Forest.Known.prune_eq {groups : Groups} {forest : Forest} (h : forest.Known groups) :
    forest.prune groups = forest := by
  have htier : ∀ tier ∈ forest, Tier.prune groups tier = tier := fun tier ht => by
    rw [Tier.prune, List.filter_eq_self.2 fun n hn => (h tier ht n hn).1,
      List.map_congr_left fun n hn => Node.prune_eq (h tier ht n hn).2, List.map_id']
  rw [Forest.prune, List.map_congr_left htier, List.map_id']

namespace Plan
variable {l : Ledger}

theorem outcome_peers_lenient (l : Ledger) (taken : List Nat) (nodes : List Node) :
    (peers l .lenient taken nodes).outcome =
      (peers l .strict taken (nodes.filter (Groups.keepsTarget l.slots))).outcome := by
  induction nodes generalizing taken with
  | nil => rfl
  | cons n nodes ih =>
    rw [peers, List.filter_cons, Groups.keepsTarget]
    by_cases hleaf : n.isLeaf
    · rw [if_pos hleaf, hleaf, Bool.not_true, Bool.false_or, Survey.outcome_bind]
      cases hn : l.position .supply n.id with
      | none =>
        rw [Ledger.knows_eq_false_iff.2 hn, outcome_lookup_lenient hn]
        exact ih taken
      | some i =>
        have hknown : Groups.knows l.slots .supply n.id := Ledger.knows_iff.2 (by rw [hn]; rfl)
        rw [if_pos hknown, peers, if_pos hleaf, Survey.outcome_bind, outcome_lookup_some hn,
          outcome_lookup_some hn]
        simp only [Except.bind]
        by_cases ht : i ∈ taken
        · rw [if_pos ht, if_pos ht]
        · rw [if_neg ht, if_neg ht, Survey.outcome_bind, Survey.outcome_bind, ih]
    · rw [if_neg hleaf, if_pos (by simp [hleaf]), peers, if_neg hleaf]

theorem outcome_targets_lenient (l : Ledger) (subTiers : List Tier) :
    (targets l .lenient subTiers).outcome = (targets l .strict
      (subTiers.map fun sub => sub.filter (Groups.keepsTarget l.slots))).outcome := by
  induction subTiers with
  | nil => rfl
  | cons sub subTiers ih =>
    rw [List.map_cons, targets, targets, Survey.outcome_bind, Survey.outcome_bind,
      outcome_peers_lenient]
    simp only [Survey.outcome_bind, ih]

theorem outcome_members_lenient (l : Ledger) (taken : List Nat) (tier : Tier) :
    (members l .lenient taken tier).outcome =
      (members l .strict taken (tier.prune l.slots)).outcome := by
  induction tier generalizing taken with
  | nil => rfl
  | cons n tier ih =>
    rw [members, Tier.prune, List.filter_cons, Survey.outcome_bind]
    cases hn : l.position .demand n.id with
    | none =>
      rw [Ledger.knows_eq_false_iff.2 hn, outcome_lookup_lenient hn]
      exact ih taken
    | some i =>
      have hknown : Groups.knows l.slots .demand n.id := Ledger.knows_iff.2 (by rw [hn]; rfl)
      have hn' : l.position .demand (n.prune l.slots).id = some i := hn
      rw [if_pos hknown, List.map_cons, members, Survey.outcome_bind, outcome_lookup_some hn,
        outcome_lookup_some hn', Node.subTiers_prune]
      simp only [Except.bind]
      by_cases ht : i ∈ taken
      · rw [if_pos ht, if_pos ht]; rfl
      · rw [if_neg ht, if_neg ht, Survey.outcome_bind, Survey.outcome_bind, outcome_targets_lenient]
        simp only [Survey.outcome_bind, ih]
        rfl

theorem outcome_survey_lenient (l : Ledger) (forest : Forest) :
    (survey l .lenient forest).outcome = (survey l .strict (forest.prune l.slots)).outcome := by
  induction forest with
  | nil => rfl
  | cons tier forest ih =>
    rw [Forest.prune, List.map_cons, survey, survey, Survey.outcome_bind, Survey.outcome_bind,
      outcome_members_lenient]
    simp only [Survey.outcome_bind, ih]
    rfl

end Plan

/-! ### No unknown id is a fault under the lenient policy -/

theorem mem_faultsInTurn {α : Type} {key : α → String} {f : List String → α → List Fault}
    {earlier : List String} {as : List α} {e : Fault} (h : e ∈ faultsInTurn key f earlier as) :
    ∃ earlier', ∃ a ∈ as, e ∈ f earlier' a := by
  induction as generalizing earlier with
  | nil => cases h
  | cons a as ih =>
    rcases List.mem_append.1 h with h | h
    · exact ⟨earlier, a, by simp, h⟩
    · obtain ⟨earlier', b, hb, he⟩ := ih h
      exact ⟨earlier', b, List.mem_cons_of_mem _ hb, he⟩

section
variable {groups : Groups} {earlier : List String} {e : Fault} {side : Side} {id : String}

theorem ne_dangling_of_mem_referenceFaults {side' : Side} {id' : String}
    (h : e ∈ referenceFaults groups .lenient side' earlier id') : e ≠ .danglingReference side id := by
  rintro rfl
  unfold referenceFaults at h
  split at h
  · split at h <;> simp at h
  · simp at h

theorem ne_dangling_of_mem_targetFaults {target : Node}
    (h : e ∈ targetFaults groups .lenient earlier target) : e ≠ .danglingReference side id := by
  rcases List.mem_append.1 h with h | h
  · rintro rfl
    split at h <;> simp at h
  · exact ne_dangling_of_mem_referenceFaults h

theorem ne_dangling_of_mem_nodeFaults {n : Node} (h : e ∈ nodeFaults groups .lenient earlier n) :
    e ≠ .danglingReference side id := by
  rcases List.mem_append.1 h with h | h
  · exact ne_dangling_of_mem_referenceFaults h
  · split at h
    · obtain ⟨sub, -, h⟩ := List.mem_flatMap.1 h
      obtain ⟨_, target, -, h⟩ := mem_faultsInTurn h
      exact ne_dangling_of_mem_targetFaults h
    · cases h

end

namespace Plan

theorem resolve_lenient_ne_dangling (l : Ledger) (forest : Forest) (side : Side) (id : String) :
    resolve l .lenient forest ≠ .error (.danglingReference side id) := by
  intro h
  have hfault := faultOf_resolve l .lenient forest
  rw [h] at hfault
  have hmem := List.mem_of_head? hfault.symm
  obtain ⟨tier, -, hmem⟩ := List.mem_flatMap.1 hmem
  obtain ⟨_, n, -, hmem⟩ := mem_faultsInTurn hmem
  exact ne_dangling_of_mem_nodeFaults hmem rfl

/-- To plan leniently is to plan strictly what pruning leaves of the forest, with the same plan or the
same fault. So an unknown id is no fault, and a forest without any is planned as it is strictly. -/
theorem resolve_lenient (l : Ledger) (forest : Forest) :
    resolve l .lenient forest = resolve l .strict (forest.prune l.slots) ∧
      (∀ side id, resolve l .lenient forest ≠ .error (.danglingReference side id)) ∧
      (forest.Known l.slots →
        forest.prune l.slots = forest ∧ resolve l .lenient forest = resolve l .strict forest) := by
  have heq := outcome_survey_lenient l forest
  refine ⟨heq, resolve_lenient_ne_dangling l forest, fun hknown => ⟨hknown.prune_eq, ?_⟩⟩
  rw [hknown.prune_eq] at heq
  exact heq

/-- Everything in the first forest is known. In the second one `q` and `v` are not, and what is left
of its tiers is one member with one supply. -/
theorem resolve_lenient_sample :
    let l := TierPlan.sampleLedger
    let known : Forest := [[.ofPeers "a" ["x", "y"]], [.ofPeers "b" ["y"], .ofPeers "a" ["y"]]]
    let partly : Forest := [[.ofPeers "q" ["x", "x"], .ofPeers "a" ["v", "y"]], [.leaf "q"]]
    (known.Known l.slots ∧ resolve l .lenient known = resolve l .strict known) ∧
      resolve l .lenient known = .ok [[⟨0, [[0, 1]]⟩], [⟨1, [[1]]⟩, ⟨0, [[1]]⟩]] ∧
      resolve l .lenient partly = resolve l .strict [[.ofPeers "a" ["y"]], []] ∧
      resolve l .lenient partly = .ok [[⟨0, [[1]]⟩], []] ∧
      resolve l .strict partly = .error (.danglingReference .demand "q") := by
  intro l known partly
  have hknown : known.Known l.slots := by decide
  exact ⟨⟨hknown, ((resolve_lenient l known).2.2 hknown).2⟩, rfl, (resolve_lenient l partly).1,
    rfl, rfl⟩

end Plan
end FairShare
