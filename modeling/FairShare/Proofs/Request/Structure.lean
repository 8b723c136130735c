import FairShare.Proofs.Json.Form
import FairShare.Request

/-!
# Two readers of requests

A text is a draft of a request if it spells one with every volume still a text (`Request.Drafts`).
One reader takes any draft and reads the volumes in it afterwards, so a fault of the structure, wherever
it stands, comes before any bad volume. The other one reads the volumes where they stand and wants both
fields. A volume that is read where it stands is a text first, and so are an entity and the groups
(`Entity.spelled_iff`, `Groups.spelled_iff`). So the two agree on texts that give both fields.
-/

namespace FairShare

open Json

variable {depth : Nat} {j : Json}

/-! ### Forms -/

/-- A node is a record of its id and, possibly, its forest, under either of two keys. -/
inductive Node.Spelled : Form Node
  | intro {depth : Nat} {j : Json} {n : Node} :
      Form.record ⟨["id"], none⟩ .string
        ⟨["priority", "subPriority"], some none⟩ (.nullable (.list (.list Node.Spelled)))
        Node.mk depth j n →
      Spelled depth j n

theorem Node.spelled_iff {n : Node} : Node.Spelled depth j n ↔
    Form.record ⟨["id"], none⟩ .string ⟨["priority", "subPriority"], some none⟩
      (.nullable (.list (.list Node.Spelled))) Node.mk depth j n :=
  ⟨fun ⟨h⟩ => h, .intro⟩

def Forest.Spelled : Form Forest := .list (.list Node.Spelled)

def Entity.SpelledWith {α β : Type} (volume : Form α) (make : String → α → β) : Form β :=
  .record ⟨["id"], none⟩ .string ⟨["volume"], none⟩ volume make

def Groups.SpelledWith {α : Type} (entity : Form α) : Form (BySide (List α)) := fun depth j g =>
  Form.pair (.list entity) depth j (g.demand, g.supply)

def Volume.Spelled : Form Volume := fun depth j v =>
  ∃ offered, Form.volumeText depth j offered ∧ Volume.ofText offered = .ok v

def Entity.Spelled : Form Entity := Entity.SpelledWith Volume.Spelled Entity.mk

namespace Request

def Draft.Spelled : Form Draft := Entity.SpelledWith .volumeText Draft.mk

/-- Both fields have to be there. -/
def Spelled : Form Request :=
  .record ⟨["priority"], none⟩ Forest.Spelled
    ⟨["entityGroups"], none⟩ (Groups.SpelledWith Entity.Spelled) Request.mk

/-- Either field may be missing. -/
def SpelledDraft : Form (Forest × BySide (List Draft)) :=
  .record ⟨["priority"], some []⟩ Forest.Spelled
    ⟨["entityGroups"], some ⟨[], []⟩⟩ (Groups.SpelledWith Draft.Spelled) Prod.mk

/-- The text has the structure of a request, with this forest and these drafts of entities. -/
def Drafts (s : String) (forest : Forest) (drafts : BySide (List Draft)) : Prop :=
  ∃ j, ofText? s = some j ∧ SpelledDraft maxDepth j (forest, drafts)

/-- Both fields are given, in an array by their place or in an object by their keys. -/
inductive GivesBoth : Json → Prop
  | array (j k : Json) (js : List Json) : GivesBoth (.array (j :: k :: js))
  | object {entries : List (Option String × Json)} {j k : Json} :
      (some "priority", j) ∈ entries → (some "entityGroups", k) ∈ entries →
      GivesBoth (.object entries)

end Request

/-- The first of some texts that is no volume is refused for this reason. -/
def Volume.FirstRefused (texts : List String) (e : VolumeError) : Prop :=
  ∃ before offered after, texts = before ++ offered :: after ∧
    (∀ t ∈ before, ∃ v, Volume.ofText t = .ok v) ∧ Volume.ofText offered = .error e

/-! ### The readers accept them -/

theorem Node.accepts_within {levels : Nat} (h : depth < levels) :
    (Node.decodeWithin levels).Accepts Node.Spelled depth := by
  induction levels generalizing depth with
  | zero => nomatch h
  | succ levels ih =>
    have hforest : ∀ d < depth,
        (Decoder.nullable (.list (.list (decodeWithin levels)))).Accepts
          (.nullable (.list (.list Node.Spelled))) d :=
      fun _ hd => .nullable (.list fun _ hd' => .list fun _ hd'' => ih (by omega))
    intro j n
    rw [Node.spelled_iff]
    exact Decoder.Accepts.record (fun d _ => ⟨rfl, rfl, .string d⟩)
      (fun d hd => ⟨rfl, rfl, hforest d hd⟩) (by decide) j n

theorem Node.accepts (depth : Nat) : Node.decode.Accepts Node.Spelled depth := fun j n =>
  Node.accepts_within (Nat.lt_succ_self depth) j n

theorem Forest.accepts (depth : Nat) : Forest.decode.Accepts Forest.Spelled depth :=
  .list fun _ _ => .list fun d _ => Node.accepts d

theorem Volume.accepts (depth : Nat) : Volume.decode.Accepts Volume.Spelled depth := by
  intro j v
  have hread : ∀ offered, (Volume.ofText offered).mapError DecodeError.badVolume = .ok v ↔
      Volume.ofText offered = .ok v := by
    intro offered
    cases Volume.ofText offered <;> simp [Except.mapError]
  simp only [Volume.decode, bind_ok, Decoder.Accepts.volumeText depth j _, hread]
  rfl

theorem Entity.accepts {α β : Type} {name : String} {decode : Decoder α} {form : Form α}
    {make : String → α → β} (h : ∀ d, decode.Accepts form d) (depth : Nat) :
    (Entity.decodeAs name decode make).Accepts (Entity.SpelledWith form make) depth :=
  .record (fun d _ => ⟨rfl, rfl, .string d⟩) (fun d _ => ⟨rfl, rfl, h d⟩) (by simp)

theorem Groups.accepts {α : Type} {decode : Decoder α} {form : Form α}
    (h : ∀ d, decode.Accepts form d) (depth : Nat) :
    (Groups.decodeWith decode).Accepts (Groups.SpelledWith form) depth := by
  intro j g
  have hpair : (Decoder.pair (.list decode)).Accepts (.pair (.list form)) depth :=
    .pair fun _ _ => .list fun d _ => h d
  rw [Groups.decodeWith, map_ok]
  constructor
  · rintro ⟨⟨demand, supply⟩, hgroups, rfl⟩
    exact (hpair _ _).1 hgroups
  · intro hgroups
    exact ⟨_, (hpair _ _).2 hgroups, rfl⟩

namespace Request

theorem accepts (depth : Nat) : Request.decode.Accepts Request.Spelled depth :=
  .record (fun d _ => ⟨rfl, rfl, Forest.accepts d⟩)
    (fun d _ => ⟨rfl, rfl, Groups.accepts (Entity.accepts Volume.accepts) d⟩) (by decide)

theorem accepts_draft (depth : Nat) : decodeDraft.Accepts SpelledDraft depth :=
  .record (fun d _ => ⟨rfl, rfl, Forest.accepts d⟩)
    (fun d _ => ⟨rfl, rfl, Groups.accepts (Entity.accepts Decoder.Accepts.volumeText) d⟩) (by decide)

/-! ### Volumes read where they stand, and afterwards -/

end Request

open Request

theorem Entity.spelled_iff {e : Entity} :
    Entity.Spelled depth j e ↔ ∃ d, Draft.Spelled depth j d ∧ d.entity = .ok e := by
  have hvolume : ∀ d k v, Volume.Spelled d k v ↔
      ∃ offered, Form.volumeText d k offered ∧ Volume.ofText offered = .ok v := fun _ _ _ => Iff.rfl
  rw [Entity.Spelled, Entity.SpelledWith, Form.record_then hvolume]
  constructor
  · rintro ⟨id, offered, v, hrecord, hv, rfl⟩
    refine ⟨⟨id, offered⟩, Form.record_pair.2 ⟨id, offered, hrecord, rfl⟩, bind_ok.2 ⟨v, hv, rfl⟩⟩
  · rintro ⟨d, hd, he⟩
    obtain ⟨id, offered, hrecord, rfl⟩ := Form.record_pair.1 hd
    obtain ⟨v, hv, he⟩ := bind_ok.1 he
    exact ⟨id, offered, v, hrecord, hv, Except.ok.inj he⟩

namespace Request

theorem entities_ok {ds : List Draft} {es : List Entity} :
    entities ds = .ok es ↔ List.Forall₂ (fun d e => d.entity = .ok e) ds es := by
  induction ds generalizing es with
  | nil =>
    rw [entities, Except.ok.injEq, List.forall₂_nil_left_iff, eq_comm]
  | cons d ds ih =>
    rw [entities, List.forall₂_cons_left_iff]
    simp only [bind_ok, ih, Except.ok.injEq]
    constructor
    · rintro ⟨e, he, es, hes, rfl⟩
      exact ⟨e, es, he, hes, rfl⟩
    · rintro ⟨e, es, he, hes, rfl⟩
      exact ⟨e, he, es, hes, rfl⟩

theorem groupsOf_ok {drafts : BySide (List Draft)} {g : Groups} : groupsOf drafts = .ok g ↔
    entities drafts.demand = .ok g.demand ∧ entities drafts.supply = .ok g.supply := by
  simp only [groupsOf, bind_ok, Except.ok.injEq]
  constructor
  · rintro ⟨demand, hd, supply, hs, rfl⟩
    exact ⟨hd, hs⟩
  · rintro ⟨hd, hs⟩
    exact ⟨_, hd, _, hs, rfl⟩

end Request

theorem Groups.spelled_iff {g : Groups} : Groups.SpelledWith Entity.Spelled depth j g ↔
    ∃ drafts, Groups.SpelledWith Draft.Spelled depth j drafts ∧ groupsOf drafts = .ok g := by
  have hlist : ∀ {d : Nat} {j : Json} {es : List Entity}, Form.list Entity.Spelled d j es ↔
      ∃ ds, Form.list Draft.Spelled d j ds ∧ entities ds = .ok es := by
    intro d j es
    have hentity : ∀ d j e, Entity.Spelled d j e ↔
        ∃ a, Draft.Spelled d j a ∧ a.entity = .ok e := fun _ _ _ => Entity.spelled_iff
    rw [Form.list_then hentity]
    simp only [entities_ok]
  obtain ⟨demand, supply⟩ := g
  constructor
  · rintro ⟨hdemand, hsupply⟩
    obtain ⟨ds, hds, hd⟩ := hlist.1 hdemand
    obtain ⟨ss, hss, hs⟩ := hlist.1 hsupply
    exact ⟨⟨ds, ss⟩, .intro hds hss, groupsOf_ok.2 ⟨hd, hs⟩⟩
  · rintro ⟨⟨ds, ss⟩, ⟨hds, hss⟩, hg⟩
    obtain ⟨hd, hs⟩ := groupsOf_ok.1 hg
    exact .intro (hlist.2 ⟨ds, hds, hd⟩) (hlist.2 ⟨ss, hss, hs⟩)

/-! ### The first bad volume -/

namespace Volume

theorem not_firstRefused_nil {e : VolumeError} : ¬ FirstRefused [] e := by
  rintro ⟨before, offered, after, h, -⟩
  cases before <;> nomatch h

theorem firstRefused_cons {t : String} {ts : List String} {e : VolumeError} :
    FirstRefused (t :: ts) e ↔
      Volume.ofText t = .error e ∨ (∃ v, Volume.ofText t = .ok v) ∧ FirstRefused ts e := by
  constructor
  · rintro ⟨_ | ⟨t', before⟩, offered, after, h, hbefore, he⟩
    · obtain ⟨rfl, rfl⟩ := List.cons.inj h
      exact .inl he
    · obtain ⟨rfl, rfl⟩ := List.cons.inj h
      obtain ⟨ht, hbefore⟩ := List.forall_mem_cons.1 hbefore
      exact .inr ⟨ht, before, offered, after, rfl, hbefore, he⟩
  · rintro (he | ⟨ht, before, offered, after, rfl, hbefore, he⟩)
    · exact ⟨[], t, ts, rfl, List.forall_mem_nil _, he⟩
    · exact ⟨t :: before, offered, after, rfl, List.forall_mem_cons.2 ⟨ht, hbefore⟩, he⟩

end Volume

namespace Request

/-- The texts of the volumes, those of demand first. -/
def offeredVolumes (drafts : BySide (List Draft)) : List String :=
  (drafts.demand ++ drafts.supply).map (·.volume)

theorem entities_error {ds : List Draft} {e : VolumeError} :
    entities ds = .error e ↔ Volume.FirstRefused (ds.map (·.volume)) e := by
  induction ds with
  | nil => exact ⟨nofun, fun h => absurd h Volume.not_firstRefused_nil⟩
  | cons d ds ih =>
    rw [List.map_cons, Volume.firstRefused_cons, ← ih, entities, Draft.entity]
    cases Volume.ofText d.volume with
    | error e' => simp [bind, Except.bind]
    | ok v => cases entities ds <;> simp [bind, Except.bind]

theorem entities_append (ds ds' : List Draft) :
    entities (ds ++ ds') =
      entities ds >>= fun es => entities ds' >>= fun es' => .ok (es ++ es') := by
  induction ds with
  | nil => cases h : entities ds' <;> simp [entities, h, bind, Except.bind]
  | cons d ds ih =>
    rw [List.cons_append, entities, ih, entities]
    cases d.entity <;> cases entities ds <;> cases entities ds' <;> rfl

/-- The volumes of both groups are read as those of one list, up to the first that is none. -/
theorem groupsOf_error {drafts : BySide (List Draft)} {e : VolumeError} :
    groupsOf drafts = .error e ↔ Volume.FirstRefused (offeredVolumes drafts) e := by
  rw [offeredVolumes, ← entities_error, entities_append, groupsOf]
  cases entities drafts.demand <;> cases entities drafts.supply <;> simp [bind, Except.bind]

/-! ### Both readers -/

theorem shares_of_givesBoth {js ks : List Json} (h : GivesBoth j)
    (hshares : Form.shares ["priority"] ["entityGroups"] j = some (js, ks)) : js ≠ [] ∧ ks ≠ [] := by
  cases h with
  | array => cases hshares; exact ⟨nofun, nofun⟩
  | object hj hk =>
    obtain ⟨-, hshares⟩ := Option.ite_none_right_eq_some.1 hshares
    cases hshares
    constructor
    · exact List.ne_nil_of_mem (List.mem_map_of_mem (List.mem_filter.2 ⟨hj, rfl⟩))
    · exact List.ne_nil_of_mem (List.mem_map_of_mem (List.mem_filter.2 ⟨hk, rfl⟩))

/-- Where both fields are given, what spells a request spells its drafts. -/
theorem spelled_iff (h : GivesBoth j) {r : Request} : Spelled depth j r ↔
    ∃ drafts, SpelledDraft depth j (r.priority, drafts) ∧ groupsOf drafts = .ok r.groups := by
  have hgroups : ∀ d k g, Groups.SpelledWith Entity.Spelled d k g ↔
      ∃ drafts, Groups.SpelledWith Draft.Spelled d k drafts ∧ groupsOf drafts = .ok g :=
    fun _ _ _ => Groups.spelled_iff
  have hdraft : ∀ c, Form.record ⟨["priority"], none⟩ Forest.Spelled ⟨["entityGroups"], none⟩
      (Groups.SpelledWith Draft.Spelled) Prod.mk depth j c ↔ SpelledDraft depth j c :=
    fun _ => Form.record_congr fun _ _ => shares_of_givesBoth h
  rw [Spelled, Form.record_then hgroups]
  simp only [hdraft]
  constructor
  · rintro ⟨forest, drafts, groups, hd, hg, rfl⟩
    exact ⟨drafts, hd, hg⟩
  · rintro ⟨drafts, hd, hg⟩
    exact ⟨_, drafts, _, hd, hg, rfl⟩

theorem readText_ok {α : Type} {decode : Decoder α} {s : String} {a : α} :
    readText decode s = .ok a ↔ ∃ j, ofText? s = some j ∧ decode .text maxDepth j = .ok a := by
  unfold readText
  split
  · next h => simp [h]
  · next h =>
    rw [h]
    split <;> simp_all

theorem readText_drafts {s : String} {forest : Forest} {drafts : BySide (List Draft)} :
    readText decodeDraft s = .ok (forest, drafts) ↔ Drafts s forest drafts := by
  simp only [readText_ok, accepts_draft maxDepth _ _, Drafts]

theorem ofText_of_drafts {s : String} {forest : Forest} {drafts : BySide (List Draft)}
    (h : Drafts s forest drafts) : ofText s =
      match groupsOf drafts with
      | .error cause => .error (.invalidVolume cause)
      | .ok groups => .ok ⟨forest, groups⟩ := by
  unfold ofText
  cases hg : groupsOf drafts <;> simp only [readText_drafts.2 h, hg]

theorem ofText_of_no_drafts {s : String} (h : ¬ ∃ forest drafts, Drafts s forest drafts) :
    ∃ cause, ofText s = .error (.malformed cause) := by
  unfold ofText
  split
  · next cause _ => exact ⟨cause, rfl⟩
  · next hread => exact absurd ⟨_, _, readText_drafts.1 hread⟩ h

theorem ofText_ok {s : String} {r : Request} : ofText s = .ok r ↔
    ∃ drafts, Drafts s r.priority drafts ∧ groupsOf drafts = .ok r.groups := by
  by_cases h : ∃ forest drafts, Drafts s forest drafts
  · obtain ⟨forest, drafts, hd⟩ := h
    rw [ofText_of_drafts hd]
    constructor
    · intro hr
      cases hg : groupsOf drafts with
      | error e => rw [hg] at hr; nomatch hr
      | ok groups =>
        rw [hg] at hr
        cases hr
        exact ⟨drafts, hd, hg⟩
    · rintro ⟨drafts', hd', hg⟩
      have heq := (readText_drafts.2 hd).symm.trans (readText_drafts.2 hd')
      cases heq
      rw [hg]
  · obtain ⟨cause, hs⟩ := ofText_of_no_drafts h
    rw [hs]
    exact ⟨nofun, fun ⟨drafts, hd, _⟩ => absurd ⟨_, drafts, hd⟩ h⟩

theorem ofText_malformed {s : String} : (∃ cause, ofText s = .error (.malformed cause)) ↔
    ¬ ∃ forest drafts, Drafts s forest drafts := by
  refine ⟨?_, ofText_of_no_drafts⟩
  rintro ⟨cause, hs⟩ ⟨forest, drafts, hd⟩
  rw [ofText_of_drafts hd] at hs
  cases hg : groupsOf drafts <;> rw [hg] at hs <;> nomatch hs

theorem ofText_invalidVolume {s : String} {e : VolumeError} :
    ofText s = .error (.invalidVolume e) ↔
      ∃ forest drafts, Drafts s forest drafts ∧ groupsOf drafts = .error e := by
  constructor
  · intro hs
    by_cases h : ∃ forest drafts, Drafts s forest drafts
    · obtain ⟨forest, drafts, hd⟩ := h
      refine ⟨forest, drafts, hd, ?_⟩
      rw [ofText_of_drafts hd] at hs
      cases hg : groupsOf drafts with
      | error e' => rw [hg] at hs; cases hs; rfl
      | ok groups => rw [hg] at hs; nomatch hs
    · obtain ⟨cause, hs'⟩ := ofText_of_no_drafts h
      nomatch hs'.symm.trans hs
  · rintro ⟨forest, drafts, hd, hg⟩
    rw [ofText_of_drafts hd, hg]

/-- Where the text gives both fields the two readers read the same requests from it. A text is refused
as malformed exactly if it has not the structure of a request, and else for the first volume that
is none. -/
theorem ofText_reads (s : String) :
    (∀ j, ofText? s = some j → GivesBoth j → ∀ r,
      ofText s = .ok r ↔ readText Request.decode s = .ok r) ∧
    ((∃ cause, ofText s = .error (.malformed cause)) ↔ ¬ ∃ forest drafts, Drafts s forest drafts) ∧
    ∀ e, ofText s = .error (.invalidVolume e) ↔
      ∃ forest drafts, Drafts s forest drafts ∧ Volume.FirstRefused (offeredVolumes drafts) e := by
  refine ⟨fun j hj hboth r => ?_, ofText_malformed, fun e => ?_⟩
  · rw [ofText_ok, readText_ok]
    simp only [Drafts, hj, Option.some.injEq, exists_eq_left', accepts maxDepth _ _, spelled_iff hboth]
  · simp only [ofText_invalidVolume, groupsOf_error]

/-- The groups before the forest, an entity as an array and one as an object with its volume first. -/
def swappedText : String :=
  "\x7b\"entityGroups\":[[[\"a\",1e0]],[\x7b\"volume\":\" 2.0\",\"id\":\"b\"\x7d]],\"priority\":[]\x7d"

def swappedTree : Json :=
  .object [
    (some "entityGroups", .array [
      .array [.array [ofString "a", .number ⟨false, ['1'], [], some (false, ['0'])⟩]],
      .array [.object [(some "volume", ofString " 2.0"), (some "id", ofString "b")]]]),
    (some "priority", .array [])]

theorem ofText_reads_swapped : ofText? swappedText = some swappedTree ∧ GivesBoth swappedTree ∧
    readText Request.decode swappedText = .ok ⟨[], ⟨[⟨"a", .clamp 1⟩], [⟨"b", .clamp 2⟩]⟩⟩ :=
  have htree : ofText? swappedText = some swappedTree := by rfl
  have hboth : GivesBoth swappedTree := .object (List.mem_cons_of_mem _ (.head _)) (.head _)
  ⟨htree, hboth, ((ofText_reads swappedText).1 swappedTree htree hboth _).1 (by rfl)⟩

end Request
end FairShare
