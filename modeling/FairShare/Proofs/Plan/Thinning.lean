import FairShare.Proofs.Plan.Admissible
import FairShare.Proofs.Tier.Thinning

/-!
# Thinned plans

Planning a forest on a thinner ledger gives the thinned plan (`Plan.ofForest_thin`): a node whose
entity is gone is passed over, and a sub-tier of such nodes is left out. What was admitted still is,
provided that under the strict policy nothing is gone (`Plan.Admits.thin`). Both need only the ids of
the ledgers, not what is left in them.
-/

namespace FairShare

theorem thinTargets_filter (σ : SlotMap) (targets : List (List Nat)) :
    thinTargets σ (targets.filter (!·.isEmpty)) = thinTargets σ targets := by
  induction targets with
  | nil => rfl
  | cons peers rest ih =>
    cases peers with
    | nil => rw [List.filter_cons_of_neg (by simp), ih]; rfl
    | cons s peers =>
      rw [List.filter_cons_of_pos (by simp), thinTargets, List.map_cons, List.filter_cons,
        thinTargets, List.map_cons, List.filter_cons]
      rw [thinTargets, thinTargets] at ih
      rw [ih]

namespace Plan

def thin (σ : SlotMap) (plan : Plan) : Plan := plan.map (·.thin σ)

variable {σ : SlotMap} {small big : Ledger} {policy : Policy}

section
variable (h : ∀ side id, small.position side id = (big.position side id).bind (σ side))
include h

theorem slotsOf_thin (side : Side) (nodes : List Node) :
    slotsOf small side nodes = (slotsOf big side nodes).filterMap (σ side) := by
  rw [slotsOf, slotsOf, List.filterMap_filterMap]
  exact List.filterMap_congr fun n _ => h side n.id

theorem targetsOf_thin (subTiers : List Tier) :
    targetsOf small subTiers = thinTargets σ (targetsOf big subTiers) := by
  rw [targetsOf, targetsOf, thinTargets_filter, thinTargets, List.map_map]
  exact congrArg _ (List.map_congr_left fun sub _ => slotsOf_thin h .supply sub)

theorem tierOf_thin (tier : Tier) : tierOf small tier = (tierOf big tier).thin σ := by
  rw [tierOf, tierOf, TierPlan.thin, List.filterMap_filterMap]
  refine List.filterMap_congr fun n _ => ?_
  rw [h .demand n.id, targetsOf_thin h]
  cases big.position .demand n.id <;> rfl

theorem ofForest_thin (forest : Forest) : ofForest small forest = thin σ (ofForest big forest) := by
  rw [ofForest, ofForest, thin, List.map_map]
  exact List.map_congr_left fun tier _ => tierOf_thin h tier

variable (hinj : ∀ {side i i' j}, σ side i = some j → σ side i' = some j → i = i')
  (hkept : policy = .strict → ∀ side, ∀ i < big.size side, (σ side i).isSome)
include hinj hkept

theorem Peerable.thin {side : Side} {nodes : List Node} (hp : Peerable big policy side nodes) :
    Peerable small policy side nodes where
  known hs n hn := by
    obtain ⟨i, hi⟩ := Option.isSome_iff_exists.1 (hp.known hs n hn)
    rw [h side n.id, hi]
    exact hkept hs side i (Ledger.position_eq_some.1 hi).1
  nodup := by
    rw [slotsOf_thin h]
    exact hp.nodup.filterMap fun _ _ _ hi hi' => hinj hi hi'

theorem Admits.thin {forest : Forest} (ha : Admits big policy forest) :
    Admits small policy forest := by
  intro tier ht
  obtain ⟨hp, hsub⟩ := ha tier ht
  refine ⟨hp.thin h hinj hkept, fun n hn hid sub hs => ?_⟩
  have hbig : (big.position .demand n.id).isSome := by
    rw [h .demand n.id] at hid
    exact Option.isSome_of_isSome_bind hid
  obtain ⟨hleaf, hpeers⟩ := hsub n hn hbig sub hs
  exact ⟨hleaf, hpeers.thin h hinj hkept⟩

end
end Plan
end FairShare
