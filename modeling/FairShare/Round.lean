import FairShare.Edge
import FairShare.Volume

/-!
# Rounds

Filling a tier goes in rounds. Every holder of active edges can offer each of them an equal share of
what it holds, in whole units, and the least of these offers is what every active edge can be given
at once. Where that is nothing, somebody holds fewer units than it has active edges; the first such
holder settles: it splits what it has among its active edges, earlier ones first, and is exhausted.

A round gives something only to active edges (`isActive_of_grants`) and always something
(`exists_grants_pos`), so the supply that is left goes down with every round
(`supplyLeft_round_lt`).
-/

namespace FairShare

/-- What is done in a round. `edges` and `peers` count the active edges that get something. -/
inductive Round
  | uniform (edges : Nat) (increment : Volume)
  | settle (holder : Holder) (held : Volume) (peers : Nat)

namespace Round

variable (edges : List Edge) (holders : List Holder)

/-- The edges that are active now. -/
def activeEdges (ledger : Ledger) : List Edge := edges.filter (·.isActive ledger)

/-- The holders of active edges, with how many they own. -/
def sharers (active : List Edge) : List (Holder × Nat) :=
  (holders.map fun h => (h, h.degree active)).filter fun s => 0 < s.2

/-- The least share that a holder can give to each of its edges. -/
def leastOffer (ledger : Ledger) (sharers : List (Holder × Nat)) : Volume :=
  let offers := sharers.map fun s => (s.1.remaining ledger).floorShare s.2
  offers.min?.getD .zero

/-- The first holder with fewer units than edges. -/
def firstShort? (ledger : Ledger) (sharers : List (Holder × Nat)) : Option (Holder × Nat) :=
  sharers.find? fun s => (s.1.remaining ledger).units < s.2

/-- The round that some active edges call for; none if there are none. -/
def ofActive? (ledger : Ledger) (active : List Edge) : Option Round :=
  if active.isEmpty then none
  else
    let shared := sharers holders active
    let increment := leastOffer ledger shared
    if increment.isZero then
      (firstShort? ledger shared).map fun s => .settle s.1 (s.1.remaining ledger) s.2
    else some (.uniform active.length increment)

/-- The round that comes next; none once no edge is active. -/
def next? (ledger : Ledger) : Option Round := ofActive? holders ledger (activeEdges edges ledger)

/-- Deals parts out in order to the edges that `p` picks; the others get nothing. -/
def deal (p : Edge → Bool) : List Volume → List Edge → List Volume
  | _, [] => []
  | parts, e :: es =>
    if p e then parts.headD .zero :: deal p parts.tail es else .zero :: deal p parts es

/-- What each edge gets in a round. -/
def grants (ledger : Ledger) : Round → List Volume
  | uniform _ increment => edges.map fun e => if e.isActive ledger then increment else .zero
  | settle h held peers => deal (fun e => e.isActive ledger && h.owns e) (held.split peers) edges

end Round

/-- Moves to every edge what it gets. -/
def Ledger.transferAll (ledger : Ledger) (granted : List (Edge × Volume)) : Ledger :=
  granted.foldl (fun l g => l.transfer g.1.demand g.1.supply g.2) ledger

namespace Ledger

theorem supplyLeft_transferAll_le (l : Ledger) (granted : List (Edge × Volume)) :
    (l.transferAll granted).supplyLeft ≤ l.supplyLeft := by
  induction granted generalizing l with
  | nil => exact Nat.le_refl _
  | cons g gs ih => exact Nat.le_trans (ih _) (supplyLeft_transfer_le ..)

theorem supplyLeft_transferAll_lt {l : Ledger} {granted : List (Edge × Volume)}
    (hlive : ∀ g ∈ granted, 0 < g.2.units → l.isLive .supply g.1.supply)
    (hpos : ∃ g ∈ granted, 0 < g.2.units) :
    (l.transferAll granted).supplyLeft < l.supplyLeft := by
  induction granted generalizing l with
  | nil => simp at hpos
  | cons g gs ih =>
    rcases Nat.eq_zero_or_pos g.2.units with h0 | h0
    · have hz : g.2 = .zero := Volume.ext h0
      have he : l.transferAll (g :: gs) = l.transferAll gs := by
        simp [transferAll, hz, transfer_zero]
      rw [he]
      refine ih (fun g' hg' => hlive g' (List.mem_cons_of_mem _ hg')) ?_
      obtain ⟨g', hg', hp⟩ := hpos
      rcases List.mem_cons.1 hg' with rfl | hg'
      · omega
      · exact ⟨g', hg', hp⟩
    · exact Nat.lt_of_le_of_lt (supplyLeft_transferAll_le _ gs)
        (supplyLeft_transfer_lt (hlive g (by simp) h0) h0)

end Ledger

namespace Round

variable {edges : List Edge} {holders : List Holder} {ledger : Ledger}

theorem length_deal (p : Edge → Bool) (parts : List Volume) (es : List Edge) :
    (deal p parts es).length = es.length := by
  induction es generalizing parts with
  | nil => rfl
  | cons e es ih => unfold deal; split <;> simp [ih]

@[simp] theorem length_grants (r : Round) : (r.grants edges ledger).length = edges.length := by
  cases r <;> simp [grants, length_deal]

theorem zero_or_of_mem_zip_deal {p : Edge → Bool} {parts : List Volume} {es : List Edge}
    {g : Edge × Volume} (hg : g ∈ es.zip (deal p parts es)) : g.2 = .zero ∨ p g.1 := by
  induction es generalizing parts with
  | nil => simp [deal] at hg
  | cons e es ih =>
    unfold deal at hg
    split at hg <;> rcases List.mem_cons.1 hg with rfl | hg
    · next h => exact .inr h
    · exact ih hg
    · exact .inl rfl
    · exact ih hg

theorem exists_mem_zip_deal {p : Edge → Bool} {parts : List Volume} {es : List Edge}
    (hp : ∃ e ∈ es, p e) (hparts : 0 < (parts.headD .zero).units) :
    ∃ g ∈ es.zip (deal p parts es), 0 < g.2.units := by
  induction es with
  | nil => simp at hp
  | cons e es ih =>
    unfold deal
    split
    · exact ⟨(e, parts.headD .zero), by simp, hparts⟩
    · next h =>
      have : ∃ e ∈ es, p e := by
        obtain ⟨e', he', hpe⟩ := hp
        rcases List.mem_cons.1 he' with rfl | he'
        · exact absurd hpe h
        · exact ⟨e', he', hpe⟩
      obtain ⟨g, hg, hpos⟩ := ih this
      exact ⟨g, by simp [hg], hpos⟩

/-- Whatever is granted goes to an active edge. -/
theorem isActive_of_grants {r : Round} {g : Edge × Volume}
    (hg : g ∈ edges.zip (r.grants edges ledger)) (hpos : 0 < g.2.units) :
    g.1.isActive ledger := by
  cases r with
  | uniform n increment =>
    rw [grants, List.zip_map_right, List.mem_map] at hg
    obtain ⟨⟨e, e'⟩, he, rfl⟩ := hg
    have hee : e = e' := by
      obtain ⟨i, hi, hz⟩ := List.getElem_of_mem he
      simp at hz; exact hz.1.symm.trans hz.2
    subst hee
    simp only [Prod.map_apply, id_eq] at hpos ⊢
    split at hpos
    · assumption
    · simp at hpos
  | settle h held peers =>
    rcases zero_or_of_mem_zip_deal hg with hz | ha
    · simp [hz] at hpos
    · simp only [Bool.and_eq_true] at ha; exact ha.1

theorem isLive_supply_of_isActive {e : Edge} (h : e.isActive ledger) :
    ledger.isLive .supply e.supply := by
  simp only [Edge.isActive, Bool.and_eq_true] at h; exact h.1.2

theorem isLive_demand_of_isActive {e : Edge} (h : e.isActive ledger) :
    ledger.isLive .demand e.demand := by
  simp only [Edge.isActive, Bool.and_eq_true] at h; exact h.1.1

theorem remaining_pos_of_owns {e : Edge} {h : Holder} (ha : e.isActive ledger) (ho : h.owns e) :
    0 < (h.remaining ledger).units := by
  cases h with
  | member i d =>
    simp only [Holder.owns, Bool.and_eq_true, beq_iff_eq] at ho
    have := isLive_demand_of_isActive ha
    simp only [Ledger.isLive, ho.2, Bool.not_eq_true'] at this
    exact Volume.not_isZero_iff.1 this
  | supply s =>
    simp only [Holder.owns, beq_iff_eq] at ho
    have := isLive_supply_of_isActive ha
    simp only [Ledger.isLive, ho, Bool.not_eq_true'] at this
    exact Volume.not_isZero_iff.1 this

theorem mem_sharers {active : List Edge} {h : Holder} {n : Nat} :
    (h, n) ∈ sharers holders active ↔ h.degree active = n ∧ 0 < n ∧ h ∈ holders := by
  simp only [sharers, List.mem_filter, List.mem_map, Prod.mk.injEq, decide_eq_true_eq]
  constructor
  · rintro ⟨⟨h', hm, rfl, rfl⟩, hn⟩; exact ⟨rfl, hn, hm⟩
  · rintro ⟨rfl, hn, hm⟩; exact ⟨⟨h, hm, rfl, rfl⟩, hn⟩

/-- Every round grants something. -/
theorem exists_grants_pos {r : Round} (hr : next? edges holders ledger = some r) :
    ∃ g ∈ edges.zip (r.grants edges ledger), 0 < g.2.units := by
  simp only [next?, ofActive?] at hr
  split at hr
  · simp at hr
  next hne =>
  split at hr
  · next hz =>
    obtain ⟨⟨h, n⟩, hfind, rfl⟩ := Option.map_eq_some_iff.1 hr
    obtain ⟨hn, hdeg, -⟩ := mem_sharers.1 (List.mem_of_find?_eq_some hfind)
    have hshort : (h.remaining ledger).units < n := by simpa using List.find?_some hfind
    obtain ⟨e, he, ho⟩ :=
      List.countP_pos_iff.1 (hn ▸ hdeg : 0 < h.degree (activeEdges edges ledger))
    obtain ⟨hmem, hact⟩ := List.mem_filter.1 he
    refine exists_mem_zip_deal ⟨e, hmem, by simp [hact, ho]⟩ ?_
    obtain ⟨k, rfl⟩ : ∃ k, n = k + 1 := ⟨n - 1, by omega⟩
    have hpos := remaining_pos_of_owns hact ho
    have hmod : (h.remaining ledger).units % (k + 1) = (h.remaining ledger).units :=
      Nat.mod_eq_of_lt hshort
    simp [Volume.split, List.range_succ_eq_map, Volume.part, hmod, hpos]
  · next hz =>
    obtain rfl := Option.some.inj hr
    obtain ⟨e, he⟩ := List.exists_mem_of_ne_nil _ (by simpa using hne)
    obtain ⟨hmem, hact⟩ := List.mem_filter.1 he
    refine ⟨(e, leastOffer ledger (sharers holders (activeEdges edges ledger))), ?_, ?_⟩
    · obtain ⟨i, hi, rfl⟩ := List.getElem_of_mem hmem
      refine List.mem_iff_getElem.2 ⟨i, by simpa using hi, ?_⟩
      simp [grants, hact]
    · exact Volume.not_isZero_iff.1 (by simpa using hz)

/-- The supply goes down with every round. -/
theorem supplyLeft_round_lt {r : Round} (hr : next? edges holders ledger = some r) :
    (ledger.transferAll (edges.zip (r.grants edges ledger))).supplyLeft < ledger.supplyLeft :=
  Ledger.supplyLeft_transferAll_lt
    (fun _ hg hpos => isLive_supply_of_isActive (isActive_of_grants hg hpos)) (exists_grants_pos hr)

end Round
end FairShare
