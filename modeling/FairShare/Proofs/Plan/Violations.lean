import FairShare.Proofs.Plan.Admissible

/-!
# What is wrong with a forest

`Forest.faults` lists everything in a forest that may be refused, whether or not something before it
already was: tier by tier, node by node, and under a known demand node sub-tier by sub-tier and
target by target. Each place is judged by the ids of the groups and those of the peers before it.
Planning ends in the first of these faults, and where there are none it does not fail
(`Plan.faultOf_resolve`). The plan keeps slots instead of ids, which comes to the same because a
known id has a slot of its own (`Plan.Seen`).
-/

namespace FairShare

/-- Whether a group has an entity with this id. -/
def Groups.knows (groups : Groups) (side : Side) (id : String) : Bool :=
  (idsOf (groups.get side)).contains id

/-- The faults that `f` finds, going through a list with the ids that have come before. -/
def faultsInTurn {α : Type} (key : α → String) (f : List String → α → List Fault)
    (earlier : List String) : List α → List Fault
  | [] => []
  | a :: as => f earlier a ++ faultsInTurn key f (key a :: earlier) as

/-- The entities of a group whose id has come before. -/
def Groups.repeats (groups : Groups) (side : Side) : List Fault :=
  faultsInTurn Entity.id (fun earlier e =>
    if e.id ∈ earlier then [.duplicateEntity side e.id] else []) [] (groups.get side)

section
variable (groups : Groups) (policy : Policy)

/-- A known id must not have come before, and the strict policy admits no others. -/
def referenceFaults (side : Side) (earlier : List String) (id : String) : List Fault :=
  if groups.knows side id then if id ∈ earlier then [.duplicatePeer id] else []
  else if policy = .strict then [.danglingReference side id] else []

def targetFaults (earlier : List String) (target : Node) : List Fault :=
  (if target.isLeaf then [] else [.unsupportedNesting target.id])
    ++ referenceFaults groups policy .supply earlier target.id

def subTierFaults (sub : Tier) : List Fault :=
  faultsInTurn Node.id (targetFaults groups policy) [] sub

/-- Nothing is looked for under a demand node that nobody knows. -/
def nodeFaults (earlier : List String) (n : Node) : List Fault :=
  referenceFaults groups policy .demand earlier n.id
    ++ if groups.knows .demand n.id then n.subTiers.flatMap (subTierFaults groups policy) else []

def Forest.faults (forest : Forest) : List Fault :=
  forest.flatMap (faultsInTurn Node.id (nodeFaults groups policy) [])

end

/-- The fault that something ended in. -/
def faultOf {α : Type} : Except Fault α → Option Fault
  | .ok _ => none
  | .error e => some e

theorem faultOf_eq_some_iff {α : Type} {x : Except Fault α} {e : Fault} :
    faultOf x = some e ↔ x = .error e := by
  cases x <;> simp [faultOf]

/-- A second step has its say where the first one succeeds. -/
theorem faultOf_bind {α β : Type} {x : Except Fault α} {f : α → Except Fault β}
    {first second : List Fault} (hx : faultOf x = first.head?)
    (hf : ∀ a, x = .ok a → faultOf (f a) = second.head?) :
    faultOf (x.bind f) = (first ++ second).head? := by
  rw [List.head?_append]
  cases x with
  | error e => rw [← hx]; rfl
  | ok a => rw [← hx]; exact hf a rfl

/-- What is made of a success is a success. -/
theorem faultOf_bind_ok {α β : Type} {x : Except Fault α} {f : α → β} {faults : List Fault}
    (hx : faultOf x = faults.head?) : faultOf (x.bind fun a => .ok (f a)) = faults.head? := by
  have h : faultOf (x.bind fun a => .ok (f a)) = (faults ++ []).head? :=
    faultOf_bind hx fun _ _ => rfl
  rwa [List.append_nil] at h

namespace Ledger

theorem knows_eq_false_iff {l : Ledger} {side : Side} {id : String} :
    Groups.knows l.slots side id = false ↔ l.position side id = none := by
  rw [← Bool.not_eq_true, Groups.knows, List.contains_iff_mem, ← Option.not_isSome_iff_eq_none,
    isSome_position_iff, ids]

theorem knows_iff {l : Ledger} {side : Side} {id : String} :
    Groups.knows l.slots side id = true ↔ (l.position side id).isSome := by
  rw [Groups.knows, List.contains_iff_mem, isSome_position_iff, ids]

end Ledger

namespace Plan
variable {l : Ledger} {policy : Policy} {side : Side} {taken : List Nat} {earlier : List String}

/-- The slots of the known ids among some. -/
def Seen (l : Ledger) (side : Side) (taken : List Nat) (earlier : List String) : Prop :=
  ∀ id i, l.position side id = some i → (i ∈ taken ↔ id ∈ earlier)

theorem seen_nil (l : Ledger) (side : Side) : Seen l side [] [] := by
  intro id i _
  simp

theorem Seen.known (hs : Seen l side taken earlier) {id : String} {i : Nat}
    (hi : l.position side id = some i) : Seen l side (i :: taken) (id :: earlier) := by
  intro id' i' hi'
  rw [List.mem_cons, List.mem_cons, hs id' i' hi']
  refine or_congr_left ⟨?_, ?_⟩
  · rintro rfl
    rw [Ledger.position_eq_some] at hi hi'
    exact hi'.2.symm.trans hi.2
  · rintro rfl
    exact Option.some.inj (hi'.symm.trans hi)

theorem Seen.unknown (hs : Seen l side taken earlier) {id : String}
    (hid : l.position side id = none) : Seen l side taken (id :: earlier) := by
  intro id' i' hi'
  rw [List.mem_cons, hs id' i' hi']
  have hne : id' ≠ id := by
    rintro rfl
    rw [hid] at hi'
    cases hi'
  simp [hne]

theorem referenceFaults_of_none (policy : Policy) (earlier : List String) {id : String}
    (hid : l.position side id = none) : referenceFaults l.slots policy side earlier id =
      if policy = .strict then [.danglingReference side id] else [] := by
  have hknown : Groups.knows l.slots side id = false := Ledger.knows_eq_false_iff.2 hid
  rw [referenceFaults, hknown]
  rfl

theorem referenceFaults_of_some (policy : Policy) (hs : Seen l side taken earlier) {id : String}
    {i : Nat} (hi : l.position side id = some i) : referenceFaults l.slots policy side earlier id =
      if i ∈ taken then [.duplicatePeer id] else [] := by
  have hknown : Groups.knows l.slots side id = true := Ledger.knows_iff.2 (by rw [hi]; rfl)
  rw [referenceFaults, if_pos hknown]
  simp only [hs id i hi]

theorem faultOf_peers {nodes : List Node} (hs : Seen l .supply taken earlier) :
    faultOf (peers l policy taken nodes).outcome =
      (faultsInTurn Node.id (targetFaults l.slots policy) earlier nodes).head? := by
  induction nodes generalizing taken earlier with
  | nil => rfl
  | cons n nodes ih =>
    rw [peers, faultsInTurn, targetFaults]
    by_cases hleaf : n.isLeaf
    · rw [if_pos hleaf, if_pos hleaf, List.nil_append, Survey.outcome_bind]
      cases hn : l.position .supply n.id with
      | none =>
        rw [referenceFaults_of_none policy earlier hn]
        cases policy with
        | strict => rw [outcome_lookup_strict hn]; rfl
        | lenient => rw [outcome_lookup_lenient hn]; exact ih (hs.unknown hn)
      | some i =>
        rw [outcome_lookup_some hn, referenceFaults_of_some policy hs hn]
        simp only [Except.bind]
        by_cases ht : i ∈ taken
        · rw [if_pos ht, if_pos ht]; rfl
        · rw [if_neg ht, if_neg ht, List.nil_append, Survey.outcome_bind]
          exact faultOf_bind_ok (ih (hs.known hn))
    · rw [if_neg hleaf, if_neg hleaf]
      rfl

theorem faultOf_targets (subTiers : List Tier) : faultOf (targets l policy subTiers).outcome =
    (subTiers.flatMap (subTierFaults l.slots policy)).head? := by
  induction subTiers with
  | nil => rfl
  | cons sub subTiers ih =>
    rw [targets, Survey.outcome_bind, List.flatMap_cons]
    refine faultOf_bind (faultOf_peers (seen_nil l .supply)) fun slots _ => ?_
    rw [Survey.outcome_bind]
    exact faultOf_bind_ok ih

theorem faultOf_members {tier : Tier} (hs : Seen l .demand taken earlier) :
    faultOf (members l policy taken tier).outcome =
      (faultsInTurn Node.id (nodeFaults l.slots policy) earlier tier).head? := by
  induction tier generalizing taken earlier with
  | nil => rfl
  | cons n tier ih =>
    rw [members, faultsInTurn, nodeFaults, Survey.outcome_bind]
    cases hn : l.position .demand n.id with
    | none =>
      rw [referenceFaults_of_none policy earlier hn, Ledger.knows_eq_false_iff.2 hn]
      cases policy with
      | strict => rw [outcome_lookup_strict hn]; rfl
      | lenient => rw [outcome_lookup_lenient hn]; exact ih (hs.unknown hn)
    | some i =>
      have hknown : Groups.knows l.slots .demand n.id = true := Ledger.knows_iff.2 (by rw [hn]; rfl)
      rw [outcome_lookup_some hn, referenceFaults_of_some policy hs hn, if_pos hknown]
      simp only [Except.bind]
      by_cases ht : i ∈ taken
      · rw [if_pos ht, if_pos ht]; rfl
      · rw [if_neg ht, if_neg ht, List.nil_append, Survey.outcome_bind]
        refine faultOf_bind (faultOf_targets n.subTiers) fun wanted _ => ?_
        rw [Survey.outcome_bind]
        exact faultOf_bind_ok (ih (hs.known hn))

/-- Planning ends in the first fault of the forest, and succeeds if it has none. -/
theorem faultOf_resolve (l : Ledger) (policy : Policy) (forest : Forest) :
    faultOf (resolve l policy forest) = (Forest.faults l.slots policy forest).head? := by
  rw [resolve]
  induction forest with
  | nil => rfl
  | cons tier forest ih =>
    rw [survey, Survey.outcome_bind, Forest.faults, List.flatMap_cons]
    refine faultOf_bind (faultOf_members (seen_nil l .demand)) fun first _ => ?_
    rw [Survey.outcome_bind]
    exact faultOf_bind_ok ih

end Plan

/-! ### Groups -/

theorem firstRepeat_eq_head? (side : Side) {seen earlier : List String}
    (hs : ∀ id, id ∈ seen ↔ id ∈ earlier) (es : List Entity) :
    (firstRepeat seen (idsOf es)).map (Fault.duplicateEntity side) =
      (faultsInTurn Entity.id (fun earlier e =>
        if e.id ∈ earlier then [.duplicateEntity side e.id] else []) earlier es).head? := by
  induction es generalizing seen earlier with
  | nil => rfl
  | cons e es ih =>
    rw [idsOf, List.map_cons, firstRepeat, faultsInTurn]
    by_cases he : e.id ∈ seen
    · rw [if_pos he, if_pos ((hs _).1 he)]; rfl
    · rw [if_neg he, if_neg (mt (hs _).2 he), List.nil_append]
      refine ih fun id => ?_
      rw [List.mem_cons, List.mem_cons, hs]

/-- A ledger is refused for the first repeated id, that of the demand group before all others. -/
theorem Ledger.faultOf_ofGroups (groups : Groups) :
    faultOf (ofGroups groups) = (groups.repeats .demand ++ groups.repeats .supply).head? := by
  have hnone : ∀ id : String, id ∈ [] ↔ id ∈ [] := fun _ => Iff.rfl
  have hrepeat := fun side => firstRepeat_eq_head? side hnone (groups.get side)
  rw [List.head?_append, Groups.repeats, Groups.repeats, ← hrepeat, ← hrepeat]
  unfold ofGroups
  split
  · next hd => rw [BySide.get, hd]; rfl
  · next hd =>
    split
    · next hs => rw [BySide.get, BySide.get, hd, hs]; rfl
    · next hs =>
      show none = _
      rw [BySide.get, BySide.get, hd, hs]; rfl

end FairShare
