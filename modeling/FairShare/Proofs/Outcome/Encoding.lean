import FairShare.Outcome.Receipt

/-!
# The canonical bytes determine the outcome

An encoding is `Delimited` on the values that `p` picks if what is written behind a value cannot be
mistaken for a part of it. Numbers of a fixed width are, and a string behind its length is. Delimited
encodings of the parts of a record, one after the other, delimit the record, and a list behind its
length is delimited if its entries are. No separators are needed, whatever bytes an id consists of.
-/

namespace FairShare

/-- Values and what follows them can be told from the bytes. -/
def Delimited {α : Type} (p : α → Prop) (encode : α → List UInt8) : Prop :=
  ∀ a b rest rest', p a → p b → encode a ++ rest = encode b ++ rest' → a = b ∧ rest = rest'

/-! ### Numbers -/

theorem leBytes_inj {width a b : Nat} (ha : a < Nat.pow 256 width) (hb : b < Nat.pow 256 width)
    (h : leBytes width a = leBytes width b) : a = b := by
  induction width generalizing a b with
  | zero =>
    have h0 : Nat.pow 256 0 = 1 := rfl
    omega
  | succ width ih =>
    rw [leBytes, leBytes, List.cons.injEq] at h
    obtain ⟨hlow, hhigh⟩ := h
    have hpow : Nat.pow 256 (width + 1) = Nat.pow 256 width * 256 := rfl
    have hdiv : a / 256 = b / 256 := ih (by omega) (by omega) hhigh
    have hmod : a % 256 = b % 256 := by
      have := congrArg UInt8.toNat hlow
      simp only [UInt8.toNat_ofNat'] at this
      omega
    omega

theorem delimited_leBytes (width : Nat) : Delimited (· < Nat.pow 256 width) (leBytes width) := by
  intro a b rest rest' ha hb h
  obtain ⟨hnum, hrest⟩ := List.append_inj h (by simp)
  exact ⟨leBytes_inj ha hb hnum, hrest⟩

/-- The first number that is too large for a count or a length. -/
def countLimit : Nat := 18446744073709551616

theorem delimited_countBytes : Delimited (· < countLimit) countBytes := delimited_leBytes 8

theorem Volume.delimited_bytes : Delimited (fun _ => True) Volume.bytes := by
  intro v w rest rest' _ _ h
  obtain ⟨hunits, hrest⟩ := delimited_leBytes 16 _ _ rest rest' v.units_lt w.units_lt h
  exact ⟨ext hunits, hrest⟩

/-! ### Ids, records and lists -/

theorem delimited_idBytes : Delimited (fun id => id.utf8ByteSize < countLimit) idBytes := by
  intro a b rest rest' ha hb h
  rw [idBytes, idBytes, List.append_assoc, List.append_assoc] at h
  obtain ⟨hsize, h⟩ := delimited_countBytes _ _ _ _ ha hb h
  obtain ⟨hbytes, hrest⟩ := List.append_inj h (by simpa using hsize)
  refine ⟨?_, hrest⟩
  apply String.toByteArray_inj.1
  exact ByteArray.ext (Array.ext' hbytes)

/-- A part of a record in front of the others. -/
theorem Delimited.append {α β γ : Type} {p : α → Prop} {q : β → Prop} {f : α → List UInt8}
    {g : β → List UInt8} (hf : Delimited p f) (hg : Delimited q g) {x : γ → α} {y : γ → β}
    (hxy : ∀ c d, x c = x d → y c = y d → c = d) :
    Delimited (fun c => p (x c) ∧ q (y c)) fun c => f (x c) ++ g (y c) := by
  intro c d rest rest' hc hd h
  rw [List.append_assoc, List.append_assoc] at h
  obtain ⟨hx, h⟩ := hf _ _ _ _ hc.1 hd.1 h
  obtain ⟨hy, hrest⟩ := hg _ _ _ _ hc.2 hd.2 h
  exact ⟨hxy c d hx hy, hrest⟩

theorem Delimited.flatMap_inj {α : Type} {p : α → Prop} {entry : α → List UInt8}
    (he : Delimited p entry) {as bs : List α} (ha : ∀ a ∈ as, p a) (hb : ∀ b ∈ bs, p b)
    (hlen : as.length = bs.length) {rest rest' : List UInt8}
    (h : as.flatMap entry ++ rest = bs.flatMap entry ++ rest') : as = bs ∧ rest = rest' := by
  induction as generalizing bs with
  | nil =>
    rw [List.length_nil, eq_comm, List.length_eq_zero_iff] at hlen
    subst hlen
    exact ⟨rfl, h⟩
  | cons a as ih =>
    cases bs with
    | nil => cases hlen
    | cons b bs =>
      rw [List.flatMap_cons, List.flatMap_cons, List.append_assoc, List.append_assoc] at h
      obtain ⟨ha0, ha⟩ := List.forall_mem_cons.1 ha
      obtain ⟨hb0, hb⟩ := List.forall_mem_cons.1 hb
      obtain ⟨hhead, htail⟩ := he _ _ _ _ ha0 hb0 h
      obtain ⟨hlist, hrest⟩ := ih ha hb (by simpa using hlen) htail
      exact ⟨by rw [hhead, hlist], hrest⟩

theorem Delimited.sectionBytes {α : Type} {p : α → Prop} {entry : α → List UInt8}
    (he : Delimited p entry) :
    Delimited (fun as => as.length < countLimit ∧ ∀ a ∈ as, p a) (sectionBytes entry) := by
  intro as bs rest rest' ha hb h
  rw [FairShare.sectionBytes, FairShare.sectionBytes, List.append_assoc, List.append_assoc] at h
  obtain ⟨hlen, h⟩ := delimited_countBytes _ _ _ _ ha.1 hb.1 h
  exact he.flatMap_inj ha.2 hb.2 hlen h

/-- An entity whose id has a length that can be written. -/
def Entity.Countable (e : Entity) : Prop := e.id.utf8ByteSize < countLimit

def Match.Countable (m : Match) : Prop :=
  m.demand.utf8ByteSize < countLimit ∧ m.supply.utf8ByteSize < countLimit

instance (e : Entity) : Decidable e.Countable := inferInstanceAs (Decidable (_ < _))
instance (m : Match) : Decidable m.Countable := inferInstanceAs (Decidable (_ ∧ _))

theorem Entity.delimited_bytes : Delimited Entity.Countable Entity.bytes := by
  intro e e' rest rest' he he' h
  refine (delimited_idBytes.append Volume.delimited_bytes (x := Entity.id) (y := Entity.volume) ?_)
    e e' rest rest' ⟨he, trivial⟩ ⟨he', trivial⟩ h
  intro c d hid hvolume
  exact Entity.ext hid hvolume

theorem Match.delimited_bytes : Delimited Match.Countable Match.bytes := by
  have hids := delimited_idBytes.append delimited_idBytes (x := fun m : BySide String => m.demand)
    (y := fun m => m.supply) fun c d hd hs => BySide.ext hd hs
  intro m m' rest rest' hm hm' h
  refine (hids.append Volume.delimited_bytes (x := fun m : Match => ⟨m.demand, m.supply⟩)
    (y := Match.volume) ?_) m m' rest rest' ⟨hm, trivial⟩ ⟨hm', trivial⟩ h
  intro c d hids hvolume
  rw [BySide.mk.injEq] at hids
  exact Match.ext hids.1 hids.2 hvolume

/-! ### Outcomes -/

/-- All the counts and lengths of an outcome can be written. -/
structure Outcome.Countable (o : Outcome) : Prop where
  pairs_lt : o.pairs.length < countLimit
  leftovers_lt : ∀ side, (o.leftovers.get side).length < countLimit
  pairs : ∀ m ∈ o.pairs, m.Countable
  leftovers : ∀ side, ∀ e ∈ o.leftovers.get side, e.Countable

/-- Outcomes with the same bytes are the same. -/
theorem Outcome.bytes_eq_iff {o o' : Outcome} (ho : o.Countable) (ho' : o'.Countable) :
    o.bytes = o'.bytes ↔ o = o' := by
  constructor
  · intro h
    have hentities := Entity.delimited_bytes.sectionBytes
    rw [bytes, bytes, List.append_assoc, List.append_assoc] at h
    obtain ⟨hpairs, h⟩ := Match.delimited_bytes.sectionBytes _ _ _ _ ⟨ho.pairs_lt, ho.pairs⟩
      ⟨ho'.pairs_lt, ho'.pairs⟩ h
    obtain ⟨hdemand, h⟩ := hentities _ _ _ _ ⟨ho.leftovers_lt .demand, ho.leftovers .demand⟩
      ⟨ho'.leftovers_lt .demand, ho'.leftovers .demand⟩ h
    rw [← List.append_nil (FairShare.sectionBytes _ o.leftovers.supply),
      ← List.append_nil (FairShare.sectionBytes _ o'.leftovers.supply)] at h
    obtain ⟨hsupply, -⟩ := hentities _ _ _ _ ⟨ho.leftovers_lt .supply, ho.leftovers .supply⟩
      ⟨ho'.leftovers_lt .supply, ho'.leftovers .supply⟩ h
    exact Outcome.ext hpairs (BySide.ext hdemand hsupply)
  · intro h
    rw [h]

/-- The same characters and volumes in the same order, but not the same ids and lists. -/
theorem Outcome.bytes_eq_iff_sample :
    let o : Outcome := ⟨[⟨"ab", "c", .clamp 1⟩], ⟨[⟨"d", .clamp 2⟩], []⟩⟩
    let o' : Outcome := ⟨[⟨"a", "bc", .clamp 1⟩], ⟨[], [⟨"d", .clamp 2⟩]⟩⟩
    o.Countable ∧ o'.Countable ∧ (o.bytes = o'.bytes ↔ o = o') ∧ o.bytes ≠ o'.bytes := by
  intro o o'
  have ho : o.Countable :=
    ⟨by decide, fun side => by cases side <;> decide, by decide, fun side => by cases side <;> decide⟩
  have ho' : o'.Countable :=
    ⟨by decide, fun side => by cases side <;> decide, by decide, fun side => by cases side <;> decide⟩
  refine ⟨ho, ho', bytes_eq_iff ho ho', fun h => ?_⟩
  have hne : o ≠ o' := by decide
  exact hne ((bytes_eq_iff ho ho').1 h)

end FairShare
