import FairShare.Proofs.Tier.Termination
import FairShare.Proofs.Tier.Unitwise

/-!
# Cursors

Whether an edge is active can be told without going through all that its member prefers. A
`Resolver` has a cursor for every member, the sub-tier that the member is at. Before each round the
cursors move on past sub-tiers in which nothing is left (`Member.advance`); the active edges are then
those to the live supply of the sub-tiers at the cursors (`TierPlan.edgesAt`), and only along these
the round moves anything.

What carries over from round to round is that nothing is left behind a cursor (`TierPlan.Behind`),
since supply only drains. So the edges at the cursors are the active ones in every round of a run
(`Resolver.after?_start`), and the run ends with the matches and the ledger of the tier
(`Resolver.after?_rounds`).
-/

namespace FairShare

/-- Nothing is left of any of these supplies. -/
def Ledger.isDry (l : Ledger) (peers : List Nat) : Bool := peers.all fun s => !l.isLive .supply s

namespace Ledger
variable {l l' : Ledger} {peers : List Nat}

theorem isDry_iff : l.isDry peers ↔ ∀ s ∈ peers, ¬ l.isLive .supply s := by
  simp [isDry]

theorem DrainsTo.isDry (h : l.DrainsTo l') (hdry : l.isDry peers) : l'.isDry peers :=
  isDry_iff.2 fun s hs => h .supply s (isDry_iff.1 hdry s hs)

end Ledger

namespace Member

/-- Moves a cursor on to the next sub-tier in which anything is left, or past the last one. -/
def advance (m : Member) (l : Ledger) (cursor : Nat) : Nat :=
  if h : cursor < m.targets.length then
    if l.isDry m.targets[cursor] then m.advance l (cursor + 1) else cursor
  else cursor
termination_by m.targets.length - cursor

/-- The active edges of a member whose index is `i` at a cursor. -/
def edgesAt (m : Member) (l : Ledger) (i cursor : Nat) : List Edge :=
  match m.targets[cursor]? with
  | none => []
  | some peers =>
    if l.isLive .demand m.demand then
      (peers.filter (l.isLive .supply)).map fun s =>
        ⟨i, m.demand, s, (m.targets.take cursor).flatten⟩
    else []

/-- Nothing is left in the sub-tiers before the cursor. -/
def Behind (m : Member) (l : Ledger) (cursor : Nat) : Prop :=
  ∀ peers ∈ m.targets.take cursor, l.isDry peers

variable {m : Member} {l l' : Ledger} {cursor : Nat}

theorem Behind.drain (h : m.Behind l cursor) (hl : l.DrainsTo l') : m.Behind l' cursor :=
  fun peers hp => hl.isDry (h peers hp)

theorem Behind.advance (h : m.Behind l cursor) : m.Behind l (m.advance l cursor) := by
  fun_induction Member.advance m l cursor with
  | case1 cursor hlt hdry ih =>
    refine ih fun peers hp => ?_
    rw [List.take_succ_eq_append_getElem hlt, List.mem_append, List.mem_singleton] at hp
    rcases hp with hp | rfl
    · exact h peers hp
    · exact hdry
  | case2 => exact h
  | case3 => exact h

theorem not_isDry_advance {peers : List Nat} (h : m.targets[m.advance l cursor]? = some peers) :
    ¬ l.isDry peers := by
  fun_induction Member.advance m l cursor with
  | case1 cursor hlt hdry ih => exact ih h
  | case2 cursor hlt hwet =>
    rw [List.getElem?_eq_getElem hlt] at h
    exact Option.some.inj h ▸ hwet
  | case3 cursor hge =>
    rw [List.getElem?_eq_none (Nat.le_of_not_lt hge)] at h
    cases h

/-- Nothing flows along the edges of sub-tiers in which nothing is left. -/
theorem filter_edgesFrom_of_dry {targets : List (List Nat)} (h : ∀ peers ∈ targets, l.isDry peers)
    (i d : Nat) (ahead : List Nat) : (edgesFrom i d ahead targets).filter (·.isActive l) = [] := by
  refine List.filter_eq_nil_iff.2 fun e he hact => ?_
  obtain ⟨before, peers, after, ht, s, hs, rfl⟩ := mem_edgesFrom.1 he
  exact Ledger.isDry_iff.1 (h peers (by simp [ht])) s hs ((Edge.isActive_iff.1 hact).1 .supply)

/-- Nothing flows along edges that have anything live ahead. -/
theorem filter_edgesFrom_of_live {ahead : List Nat} {s : Nat} (hs : s ∈ ahead)
    (hl : l.isLive .supply s) (i d : Nat) (targets : List (List Nat)) :
    (edgesFrom i d ahead targets).filter (·.isActive l) = [] := by
  refine List.filter_eq_nil_iff.2 fun e he hact => ?_
  obtain ⟨before, peers, after, ht, t, ht', rfl⟩ := mem_edgesFrom.1 he
  exact (Edge.isActive_iff.1 hact).2 s (List.mem_append_left _ hs) hl

/-- With everything ahead used up, the active edges to a sub-tier are those to its live supply. -/
theorem filter_map_of_dry {ahead peers : List Nat} (h : l.isDry ahead) (i d : Nat) :
    (peers.map fun s => (⟨i, d, s, ahead⟩ : Edge)).filter (·.isActive l) =
      if l.isLive .demand d then
        (peers.filter (l.isLive .supply)).map fun s => ⟨i, d, s, ahead⟩
      else [] := by
  have hactive : ∀ s, Edge.isActive l ⟨i, d, s, ahead⟩ =
      (l.isLive .demand d && l.isLive .supply s) := fun s => by
    rw [Edge.isActive, ← Ledger.isDry, h, Bool.and_true]
  rw [List.filter_map]
  simp only [Function.comp_def, hactive]
  split
  · next hd => simp only [hd, Bool.true_and]
  · next hd => simp [hd]

/-- The active edges of a member are those to the live supply of the first sub-tier that has any. -/
theorem filter_edgesFrom {before : List (List Nat)} {peers : List Nat}
    (hdry : ∀ peers ∈ before, l.isDry peers) (hwet : ¬ l.isDry peers) (i d : Nat)
    (after : List (List Nat)) :
    (edgesFrom i d [] (before ++ peers :: after)).filter (·.isActive l) =
      if l.isLive .demand d then
        (peers.filter (l.isLive .supply)).map fun s => ⟨i, d, s, before.flatten⟩
      else [] := by
  obtain ⟨s, hs, hl⟩ : ∃ s ∈ peers, l.isLive .supply s := by simpa [Ledger.isDry_iff] using hwet
  have hahead : l.isDry before.flatten := Ledger.isDry_iff.2 fun s hs => by
    obtain ⟨peers, hp, hs⟩ := List.mem_flatten.1 hs
    exact Ledger.isDry_iff.1 (hdry peers hp) s hs
  rw [edgesFrom_append, List.filter_append, filter_edgesFrom_of_dry hdry, edgesFrom,
    List.filter_append, filter_edgesFrom_of_live (List.mem_append_right _ hs) hl, List.nil_append,
    List.nil_append, List.append_nil, filter_map_of_dry hahead]

/-- With nothing left behind a cursor that has been moved on, the edges at it are the active ones. -/
theorem edgesAt_advance (h : m.Behind l cursor) (i : Nat) : m.edgesAt l i (m.advance l cursor) =
    (edgesFrom i m.demand [] m.targets).filter (·.isActive l) := by
  have hbehind := h.advance
  cases hat : m.targets[m.advance l cursor]? with
  | none =>
    rw [Behind, List.take_of_length_le (List.getElem?_eq_none_iff.1 hat)] at hbehind
    rw [edgesAt, hat, filter_edgesFrom_of_dry hbehind]
  | some peers =>
    obtain ⟨hlt, hpeers⟩ := List.getElem?_eq_some_iff.1 hat
    have hsplit : m.targets.take (m.advance l cursor) ++
        peers :: m.targets.drop (m.advance l cursor + 1) = m.targets := by
      rw [← hpeers, List.getElem_cons_drop, List.take_append_drop]
    have hedges := filter_edgesFrom hbehind (not_isDry_advance hat) i m.demand
      (m.targets.drop (m.advance l cursor + 1))
    rw [hsplit] at hedges
    rw [edgesAt, hat, hedges]

end Member

namespace TierPlan

section
variable (tier : TierPlan) (l : Ledger) (cursors : List Nat)

/-- Moves every member's cursor on. -/
def advance : List Nat := List.zipWith (fun m cursor => m.advance l cursor) tier cursors

/-- The active edges at the cursors, member by member. -/
def edgesAt : List Edge :=
  (tier.zip cursors).zipIdx.flatMap fun x => x.1.1.edgesAt l x.2 x.1.2

/-- Every member has a cursor, with nothing left behind it. -/
structure Behind : Prop where
  length : cursors.length = tier.length
  dry : ∀ x ∈ tier.zip cursors, x.1.Behind l x.2

end

variable {tier : TierPlan} {l l' : Ledger} {cursors : List Nat}

theorem behind_start (tier : TierPlan) (l : Ledger) : tier.Behind l (tier.map fun _ => 0) where
  length := List.length_map _
  dry x hx peers hp := by
    obtain ⟨_, -, h⟩ := List.mem_map.1 (List.of_mem_zip hx).2
    rw [← h] at hp
    cases hp

theorem Behind.drain (h : tier.Behind l cursors) (hl : l.DrainsTo l') : tier.Behind l' cursors where
  length := h.length
  dry x hx := (h.dry x hx).drain hl

theorem zip_advance (tier : TierPlan) (l : Ledger) (cursors : List Nat) :
    tier.zip (tier.advance l cursors) = (tier.zip cursors).map fun x => (x.1, x.1.advance l x.2) := by
  rw [advance]
  induction tier generalizing cursors with
  | nil => rfl
  | cons m tier ih =>
    cases cursors with
    | nil => rfl
    | cons cursor cursors => simp only [List.zipWith_cons_cons, List.zip_cons_cons, ih, List.map_cons]

theorem Behind.advance (h : tier.Behind l cursors) :
    tier.Behind l (tier.advance l cursors) where
  length := by rw [TierPlan.advance, List.length_zipWith, h.length, Nat.min_self]
  dry x hx := by
    rw [zip_advance] at hx
    obtain ⟨y, hy, rfl⟩ := List.mem_map.1 hx
    exact (h.dry y hy).advance

theorem edgesAt_advance (h : tier.Behind l cursors) :
    tier.edgesAt l (tier.advance l cursors) = Round.activeEdges tier.edges l := by
  have htier : tier.zipIdx = (tier.zip cursors).zipIdx.map (Prod.map Prod.fst id) := by
    rw [← List.zipIdx_map, List.map_fst_zip (Nat.le_of_eq h.length.symm)]
  rw [edgesAt, zip_advance, List.zipIdx_map, List.flatMap_map, Round.activeEdges, edges, htier,
    List.flatMap_map, List.filter_flatMap, List.flatMap_def, List.flatMap_def]
  refine congrArg List.flatten (List.map_congr_left fun x hx => ?_)
  exact Member.edgesAt_advance (h.dry _ (List.fst_mem_of_mem_zipIdx hx)) x.2

end TierPlan

/-! ### What a round moves -/

namespace Round

/-- What a round moves along the active edges: the increment along all of them, or the parts of the
one who settles along its own. -/
def moves (active : List Edge) : Round → List (Edge × Volume)
  | uniform _ increment => active.map fun e => (e, increment)
  | settle h held peers => (active.filter h.owns).zip (held.split peers)

theorem map_fst_moves_sublist (active : List Edge) (r : Round) :
    ((r.moves active).map Prod.fst).Sublist active := by
  cases r with
  | uniform n increment =>
    rw [moves, List.map_map]
    exact (List.map_id active).symm ▸ List.Sublist.refl active
  | settle h held peers => exact (map_fst_zip_sublist ..).trans List.filter_sublist

variable {edges : List Edge} {l : Ledger}

/-- An edge is granted what is moved along it as an active edge. -/
theorem grants_eq_volumeOn (hn : (activeEdges edges l).Nodup) (r : Round) :
    r.grants edges l = edges.map (volumeOn (r.moves (activeEdges edges l))) := by
  cases r with
  | uniform n increment =>
    rw [grants, moves]
    refine List.map_congr_left fun e he => ?_
    rw [volumeOn_map]
    simp only [mem_activeEdges, he, true_and]
  | settle h held peers =>
    rw [grants, moves, filter_activeEdges]
    exact deal_eq_volumeOn (filter_activeEdges edges l h.owns ▸ hn.sublist List.filter_sublist) _

theorem unitsAlong_moves (r : Round) (p : Edge → Bool) :
    unitsAlong p (r.moves (activeEdges edges l)) = r.granted edges l p := by
  cases r with
  | uniform n increment =>
    rw [granted_uniform, moves, unitsAlong_map]
  | settle h held peers => rw [granted_settle, moves]

theorem transferAll_moves (r : Round) :
    l.transferAll (r.moves (activeEdges edges l)) = l.transferAll (edges.zip (r.grants edges l)) := by
  refine Ledger.ext_remaining (fun side => ?_) fun side i => ?_
  · rw [Ledger.ids_transferAll, Ledger.ids_transferAll]
  · rw [Ledger.units_remaining_transferAll, Ledger.units_remaining_transferAll, unitsAlong_moves,
      granted]

end Round

/-! ### The run -/

/-- What changes while a tier is filled: the cursors, the ledger, and the volume that has flowed along
each edge. -/
structure Resolver where
  cursors : List Nat
  ledger : Ledger
  flows : Edge → Volume

namespace Resolver

/-- Every member is at its first sub-tier. -/
def start (tier : TierPlan) (l : Ledger) : Resolver := ⟨tier.map fun _ => 0, l, fun _ => .zero⟩

/-- Moves a volume along an edge. -/
def move (r : Resolver) (g : Edge × Volume) : Resolver where
  cursors := r.cursors
  ledger := r.ledger.transfer g.1.demand g.1.supply g.2
  flows e := if e = g.1 then (r.flows e).addSat g.2 else r.flows e

/-- Moves the cursors on, and carries out the round that the active edges at them call for. -/
def step (tier : TierPlan) (r : Resolver) : Option (Round × Resolver) :=
  let cursors := tier.advance r.ledger r.cursors
  let active := tier.edgesAt r.ledger cursors
  (Round.ofActive? (tier.holders r.ledger) r.ledger active).map fun round =>
    (round, (round.moves active).foldl move { r with cursors })

/-- The state after so many rounds, if there are as many. -/
def after? (tier : TierPlan) : Nat → Resolver → Option Resolver
  | 0, r => some r
  | n + 1, r => (r.step tier).bind fun s => after? tier n s.2

/-- What has been filled so far. -/
def filling (tier : TierPlan) (r : Resolver) : Filling := ⟨r.ledger, tier.edges.map r.flows⟩

theorem flows_move (r : Resolver) (g : Edge × Volume) (e : Edge) :
    (r.move g).flows e = if e = g.1 then (r.flows e).addSat g.2 else r.flows e := rfl

theorem cursors_foldl_move (r : Resolver) (table : List (Edge × Volume)) :
    (table.foldl move r).cursors = r.cursors := by
  induction table generalizing r with
  | nil => rfl
  | cons g table ih => rw [List.foldl_cons, ih]; rfl

theorem ledger_foldl_move (r : Resolver) (table : List (Edge × Volume)) :
    (table.foldl move r).ledger = r.ledger.transferAll table := by
  induction table generalizing r with
  | nil => rfl
  | cons g table ih => rw [List.foldl_cons, ih]; rfl

theorem flows_foldl_move (r : Resolver) {table : List (Edge × Volume)}
    (hn : (table.map Prod.fst).Nodup) (e : Edge) :
    (table.foldl move r).flows e = (r.flows e).addSat (volumeOn table e) := by
  induction table generalizing r with
  | nil => exact (Volume.addSat_zero _).symm
  | cons g table ih =>
    obtain ⟨hg, hn⟩ := List.nodup_cons.1 hn
    rw [List.foldl_cons, ih _ hn, flows_move]
    by_cases he : e = g.1
    · rw [if_pos he, volumeOn_of_not_mem (he ▸ hg), Volume.addSat_zero, he,
        volumeOn_cons_self]
    · rw [if_neg he, volumeOn_cons_of_ne he]

/-- Nothing is left behind the cursors, and what has flowed is what is missing from the ledger. -/
structure Tracks (tier : TierPlan) (l : Ledger) (r : Resolver) : Prop where
  behind : tier.Behind r.ledger r.cursors
  balanced : (r.filling tier).Balanced tier.edges l

variable {tier : TierPlan} {l : Ledger} {r s : Resolver} {round : Round}

theorem filling_start (tier : TierPlan) (l : Ledger) :
    (start tier l).filling tier = .start tier.edges l := rfl

theorem tracks_start (tier : TierPlan) (l : Ledger) : Tracks tier l (start tier l) where
  behind := TierPlan.behind_start tier l
  balanced := Filling.balanced_start tier.edges l

/-- A round moves what the tier's round grants. -/
theorem filling_foldl_move (hn : (Round.activeEdges tier.edges r.ledger).Nodup) (round : Round)
    (cursors : List Nat) :
    ((round.moves (Round.activeEdges tier.edges r.ledger)).foldl move { r with cursors }).filling tier =
      (r.filling tier).apply tier.edges round := by
  have hkeys := hn.sublist (Round.map_fst_moves_sublist _ round)
  refine Filling.ext ?_ ?_
  · rw [filling, ledger_foldl_move, Round.transferAll_moves]
    rfl
  · have hflows := funext (flows_foldl_move { r with cursors } hkeys)
    show tier.edges.map _ = List.zipWith _ (tier.edges.map r.flows) (round.grants _ r.ledger)
    rw [hflows, Round.grants_eq_volumeOn hn, List.zipWith_map, List.zipWith_self]

/-- The step of a resolver is that of the tier. -/
theorem map_step (ht : tier.Fits l) (h : Tracks tier l r) :
    (r.step tier).map (fun s => (s.1, s.2.filling tier)) =
      (r.filling tier).step tier.edges (tier.holders l) := by
  have hn := (h.balanced.fits ht).nodup_activeEdges r.ledger
  rw [step, TierPlan.edgesAt_advance h.behind, Option.map_map, Filling.step,
    h.balanced.holders_eq tier]
  refine congrArg (Option.map · _) (funext fun round => ?_)
  exact congrArg (round, ·) (filling_foldl_move hn round _)

theorem Tracks.step (ht : tier.Fits l) (h : Tracks tier l r) (hs : r.step tier = some (round, s)) :
    Tracks tier l s := by
  have hfilling := map_step ht h
  rw [hs, Option.map_some] at hfilling
  obtain ⟨hround, hfill⟩ := Filling.step_eq_some_iff.1 hfilling.symm
  have hcursors : s.cursors = tier.advance r.ledger r.cursors := by
    obtain ⟨_, -, heq⟩ := Option.map_eq_some_iff.1 hs
    obtain ⟨-, rfl⟩ := Prod.mk.inj heq
    exact cursors_foldl_move ..
  have hdrains : r.ledger.DrainsTo s.ledger := by
    rw [show s.ledger = _ from congrArg Filling.ledger hfill]
    exact Filling.drainsTo_apply tier.edges (r.filling tier) round
  refine ⟨?_, ?_⟩
  · rw [hcursors]
    exact h.behind.advance.drain hdrains
  · rw [hfill]
    exact h.balanced.apply ht hround

theorem map_after? (ht : tier.Fits l) (h : Tracks tier l r) (n : Nat) :
    (after? tier n r).map (filling tier) =
      Filling.after? tier.edges (tier.holders l) n (r.filling tier) ∧
    ∀ s, after? tier n r = some s → Tracks tier l s := by
  induction n generalizing r with
  | zero => exact ⟨rfl, fun s hs => Option.some.inj hs ▸ h⟩
  | succ n ih =>
    rw [after?, Filling.after?, ← map_step ht h]
    cases hs : r.step tier with
    | none => exact ⟨rfl, fun s hs => by cases hs⟩
    | some next => exact ih (h.step ht hs)

/-- After any number of rounds what has been filled is what the tier fills in as many, and the edges
at the cursors are those that are active. -/
theorem after?_start (ht : tier.Fits l) (n : Nat) :
    (after? tier n (start tier l)).map (filling tier) = tier.stage l n ∧
    ∀ r, after? tier n (start tier l) = some r →
      tier.edgesAt r.ledger (tier.advance r.ledger r.cursors) =
        Round.activeEdges tier.edges r.ledger := by
  obtain ⟨hstage, htracks⟩ := map_after? ht (tracks_start tier l) n
  exact ⟨hstage, fun r hr => TierPlan.edgesAt_advance (htracks r hr).behind⟩

/-- Before the last round of the sample the first member goes on to its second sub-tier. -/
example : ((Resolver.start TierPlan.sampleTier TierPlan.sampleLedger).after?
    TierPlan.sampleTier 4).map (·.cursors) = some [1, 0] := by decide +kernel

/-- A resolver stops after the rounds of the tier, with its matches and its ledger. -/
theorem after?_rounds (ht : tier.Fits l) :
    ∃ last, after? tier (tier.resolve l).rounds.length (start tier l) = some last ∧
      last.step tier = none ∧ last.ledger = (tier.resolve l).ledger ∧
      TierPlan.pairs l tier.edges (tier.edges.map last.flows) = (tier.resolve l).pairs := by
  obtain ⟨hmap, htracks⟩ := map_after? ht (tracks_start tier l) (tier.resolve l).rounds.length
  rw [filling_start, show (tier.resolve l).rounds = (tier.fill l).1 from rfl, TierPlan.fill,
    Filling.after?_run, Option.map_eq_some_iff] at hmap
  obtain ⟨last, hlast, hfill⟩ := hmap
  have htrack := htracks last hlast
  refine ⟨last, hlast, ?_, congrArg Filling.ledger hfill, ?_⟩
  · have hnone := map_step ht htrack
    rw [Filling.step_eq_none_iff.2, Option.map_eq_none_iff] at hnone
    · exact hnone
    · rw [htrack.balanced.holders_eq tier, Round.next?_eq_none_iff (htrack.balanced.fits ht), hfill]
      exact TierPlan.activeEdges_fill ht
  · rw [TierPlan.pairs_resolve]
    exact congrArg (TierPlan.pairs l tier.edges) (congrArg Filling.flows hfill)

end Resolver
end FairShare
