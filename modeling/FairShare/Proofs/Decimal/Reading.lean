import FairShare.Proofs.Decimal.Numeral
import FairShare.Proofs.Decimal.Rounding

/-!
# What is read from a text

Digits are read one by one. As long as they fit, the mantissa is their value; the first place that
does not fit decides the rounding, and no digit after it counts, nor any after an underscore behind
the last place. What goes unread is worth less than a unit of the last place, and there is no room for
another digit (`Decimal.Reads`). An exponent then moves the point. So the decimal is the number that
the text spells, underscores apart, if that fits, and otherwise less than a unit of its last place
away from it (`Decimal.approximates_ofChars?`).
-/

namespace FairShare.Decimal

open Text

/-- What a decimal is after digits of which the last ones are places: all of them, or, where they do
not fit, a decimal with no room for another digit. -/
inductive Reads (d : Decimal) (digits : List Char) (places : Nat) : Prop
  | all (mantissa_eq : d.mantissa = ofDigits digits) (scale_eq : d.scale = places)
  | cut (out : limit ≤ ofDigits digits ∨ maxScale < places) (full : d.IsFull)
      (near : d.Near (ofDigits digits / 10 ^ places))

variable {d r : Decimal} {ds cs tail : List Char} {seen : Bool} {c : Char} {k places : Nat}

/-! ### Digits that go unread -/

theorem all_isTail_iff : tail.all isTail ↔ ∀ c ∈ dropUnderscores tail, c.isDigit := by
  simp only [dropUnderscores, List.mem_filter, List.all_eq_true, isTail, Bool.or_eq_true,
    beq_iff_eq, bne_iff_ne, and_imp, or_iff_not_imp_right, ne_eq]

theorem div_pow_add_mul (x : ℚ) (s n : Nat) : x / 10 ^ (s + n) * 10 ^ s = x / 10 ^ n := by
  rw [pow_add]
  field_simp

/-- They are worth less than a unit of the last place. -/
theorem bounds_of_unread (hm : d.mantissa = ofDigits ds) (ht : ∀ c ∈ tail, c.isDigit) :
    d.mantissa ≤ (ofDigits (ds ++ tail) : ℚ) / 10 ^ tail.length ∧
      (ofDigits (ds ++ tail) : ℚ) / 10 ^ tail.length < d.mantissa + 1 := by
  obtain ⟨hlow, hhigh⟩ := ofDigits_append_bounds ds ht
  have hpos : (0 : ℚ) < 10 ^ tail.length := by positivity
  rw [hm, le_div_iff₀ hpos, div_lt_iff₀ hpos]
  exact ⟨by exact_mod_cast hlow, by exact_mod_cast hhigh⟩

theorem near_of_unread (hm : d.mantissa = ofDigits ds) (ht : ∀ c ∈ tail, c.isDigit) :
    d.Near (ofDigits (ds ++ tail) / 10 ^ (d.scale + tail.length)) := by
  obtain ⟨hlow, hhigh⟩ := bounds_of_unread hm ht
  rw [Near, div_pow_add_mul, abs_lt]
  constructor <;> linarith

theorem le_of_unread (hm : d.mantissa = ofDigits ds) (ht : ∀ c ∈ tail, c.isDigit) :
    (10 * d.mantissa + (c.toNat - 48)) * 10 ^ tail.length ≤ ofDigits (ds ++ c :: tail) := by
  have hlow := (ofDigits_append_bounds (ds ++ [c]) ht).1
  rwa [ofDigits_append_digit, ← hm, List.append_assoc, List.singleton_append] at hlow

/-- The first one counts: from five on they are worth at least half a unit. -/
theorem lt_of_unread (hm : d.mantissa = ofDigits ds) (hk : 5 ≤ c.toNat - 48)
    (ht : ∀ c ∈ tail, c.isDigit) :
    d.mantissa < (ofDigits (ds ++ c :: tail) : ℚ) / 10 ^ (c :: tail).length := by
  have hlt : d.mantissa * 10 ^ (c :: tail).length < ofDigits (ds ++ c :: tail) := by
    refine Nat.lt_of_lt_of_le ?_ (le_of_unread hm ht)
    rw [List.length_cons, pow_succ', ← Nat.mul_assoc]
    exact Nat.mul_lt_mul_of_pos_right (by omega) (Nat.pow_pos (by decide))
  rw [lt_div_iff₀ (by positivity)]
  exact_mod_cast hlt

/-- A digit that does not fit decides the rounding. -/
theorem reads_of_unread (hm : d.mantissa = ofDigits ds) (hc : c.isDigit)
    (hfull : d.appendFraction? (c.toNat - 48) = none) (ht : ∀ c ∈ tail, c.isDigit)
    (h : (if 5 ≤ c.toNat - 48 then d.awayFromZero? else some d) = some r) :
    r.negative = d.negative ∧ r.Reads (ds ++ c :: tail) (d.scale + (c :: tail).length) := by
  have hlast : limit ≤ 10 * d.mantissa + (c.toNat - 48) ∨ maxScale < d.scale + 1 :=
    ofParts?_eq_none hfull
  have hk := sub_lt_of_isDigit hc
  have hscale := d.scale_le
  have hall : ∀ e ∈ c :: tail, e.isDigit := List.forall_mem_cons.2 ⟨hc, ht⟩
  have hout : limit ≤ ofDigits (ds ++ c :: tail) ∨ maxScale < d.scale + (c :: tail).length := by
    rcases hlast with hlimit | hmax
    · have hpos : 0 < 10 ^ tail.length := Nat.pow_pos (by decide)
      exact .inl (hlimit.trans ((Nat.le_mul_of_pos_right _ hpos).trans (le_of_unread hm ht)))
    · right
      rw [List.length_cons]
      omega
  split at h
  · next hfive =>
    obtain ⟨-, hhigh⟩ := bounds_of_unread hm hall
    have hlow := lt_of_unread hm hfive ht
    rw [← div_pow_add_mul _ d.scale] at hlow hhigh
    obtain ⟨hn, hnear, hrfull⟩ := awayFromZero?_near h hlow hhigh (by omega)
    exact ⟨hn, .cut hout hrfull hnear⟩
  · next hfour =>
    -- ten times a mantissa is no less than the limit if a digit below five makes it so
    cases h
    refine ⟨rfl, .cut hout ?_ (near_of_unread hm hall)⟩
    unfold IsFull limit at *
    omega

/-! ### Reading -/

theorem readFraction_reads (hm : d.mantissa = ofDigits ds) (h : readFraction d seen cs = some r) :
    (∀ c ∈ dropUnderscores cs, c.isDigit) ∧ (seen ∨ dropUnderscores cs ≠ []) ∧
      r.negative = d.negative ∧
      r.Reads (ds ++ dropUnderscores cs) (d.scale + (dropUnderscores cs).length) := by
  fun_induction readFraction d seen cs generalizing ds with
  | case1 d =>
    cases h
    exact ⟨List.forall_mem_nil _, .inl rfl, rfl, .all (by simpa [dropUnderscores] using hm) rfl⟩
  | case2 | case3 | case5 | case7 | case9 => cases h
  | case4 d seen cs hseen hlast htail =>
    cases h
    rw [dropUnderscores_underscore]
    have hdigits := all_isTail_iff.1 htail
    refine ⟨hdigits, .inl (by simpa using hseen), rfl, ?_⟩
    by_cases hnil : dropUnderscores cs = []
    · rw [hnil]
      exact .all (by simpa using hm) rfl
    · have hpos := List.length_pos_iff.2 hnil
      exact .cut (by omega) (.inl hlast.1) (near_of_unread hm hdigits)
  | case6 d seen cs hseen hlast ih => exact ih hm h
  | case8 d seen c cs hc k hk longer hlonger ih =>
    obtain ⟨hdigit, rfl⟩ := digit?_eq_some.1 hk
    obtain ⟨hn, hm', hs⟩ := ofParts?_eq_some.1 hlonger
    have hlong : longer.mantissa = ofDigits (ds ++ [c]) := by
      rw [hm', hm, ofDigits_append_digit]
    obtain ⟨hall, -, hneg, hreads⟩ := ih hlong h
    rw [dropUnderscores_cons hc]
    refine ⟨List.forall_mem_cons.2 ⟨hdigit, hall⟩, .inr (List.cons_ne_nil _ _), hneg.trans hn, ?_⟩
    rwa [hs, List.append_assoc, List.singleton_append, Nat.add_right_comm, Nat.add_assoc] at hreads
  | case10 d seen c cs hc k hk hfull htail hfive =>
    obtain ⟨hdigit, rfl⟩ := digit?_eq_some.1 hk
    have hall := all_isTail_iff.1 (by simpa using htail)
    rw [dropUnderscores_cons hc]
    exact ⟨List.forall_mem_cons.2 ⟨hdigit, hall⟩, .inr (List.cons_ne_nil _ _),
      reads_of_unread hm hdigit hfull hall ((if_pos hfive).trans h)⟩
  | case11 d seen c cs hc k hk hfull htail hfour =>
    obtain ⟨hdigit, rfl⟩ := digit?_eq_some.1 hk
    have hall := all_isTail_iff.1 (by simpa using htail)
    rw [dropUnderscores_cons hc]
    exact ⟨List.forall_mem_cons.2 ⟨hdigit, hall⟩, .inr (List.cons_ne_nil _ _),
      reads_of_unread hm hdigit hfull hall ((if_neg hfour).trans h)⟩

theorem readWhole_reads (hm : d.mantissa = ofDigits ds) (hs : d.scale = 0)
    (h : readWhole d seen cs = some r) :
    let whole := beforePoint (dropUnderscores cs)
    let fraction := afterPoint (dropUnderscores cs)
    (∀ c ∈ whole ++ fraction, c.isDigit) ∧ (seen ∨ whole ++ fraction ≠ []) ∧
      r.negative = d.negative ∧ r.Reads (ds ++ (whole ++ fraction)) fraction.length := by
  fun_induction readWhole d seen cs generalizing ds with
  | case1 d =>
    cases h
    exact ⟨List.forall_mem_nil _, .inl rfl, rfl, .all (hm.trans (congrArg ofDigits (List.append_nil ds).symm)) hs⟩
  | case2 | case5 | case6 | case8 => cases h
  | case3 d seen cs =>
    have hreads := readFraction_reads hm h
    rwa [hs, Nat.zero_add] at hreads
  | case4 d cs _ ih => exact ih hm hs h
  | case7 d seen c cs hpoint hunder k hk longer hlonger ih =>
    obtain ⟨hdigit, rfl⟩ := digit?_eq_some.1 hk
    obtain ⟨hn, hm', hs'⟩ := ofParts?_eq_some.1 hlonger
    have hlong : longer.mantissa = ofDigits (ds ++ [c]) := by
      rw [hm', hm, ofDigits_append_digit]
    obtain ⟨hall, -, hneg, hreads⟩ := ih hlong (hs'.trans hs) h
    rw [dropUnderscores_cons hunder, beforePoint_cons hpoint, afterPoint_cons hpoint]
    refine ⟨List.forall_mem_cons.2 ⟨hdigit, hall⟩, .inr (List.cons_ne_nil _ _), hneg.trans hn, ?_⟩
    rwa [List.append_assoc, List.singleton_append] at hreads

/-- What a decimal is that is read from a number without an exponent. -/
structure ReadFrom (d : Decimal) (n : Numeral) : Prop where
  negative_eq : d.negative = n.negative
  no_exponent : n.exponent = none
  reads : d.Reads (n.whole ++ n.fraction) n.fraction.length

theorem readWhole_readFrom {negative : Bool} (h : readWhole (zero negative) false cs = some d) :
    ∃ n, Numeral.unsigned? negative (dropUnderscores cs) = some n ∧ d.ReadFrom n := by
  have hm : (zero negative).mantissa = ofDigits [] := rfl
  obtain ⟨hall, hne, hneg, hreads⟩ := readWhole_reads hm rfl h
  have hdigits := isDigits_iff.2 ⟨hne.resolve_left Bool.false_ne_true, hall⟩
  exact ⟨_, if_pos hdigits, hneg, rfl, hreads⟩

theorem ofPlain?_readFrom (h : ofPlain? cs = some d) :
    ∃ n, Numeral.plain? (dropUnderscores cs) = some n ∧ d.ReadFrom n := by
  unfold ofPlain? at h
  split at h
  · exact readWhole_readFrom h
  · exact readWhole_readFrom h
  · next hminus hplus =>
    suffices Numeral.plain? (dropUnderscores cs) = Numeral.unsigned? false (dropUnderscores cs) by
      rw [this]
      exact readWhole_readFrom h
    cases cs with
    | nil => rfl
    | cons c cs =>
      -- an underscore in front is refused, so dropping underscores uncovers no sign
      have hc : c ≠ '_' := by
        rintro rfl
        nomatch h
      rw [dropUnderscores_cons hc]
      unfold Numeral.plain?
      split
      · next heq =>
        obtain ⟨rfl, -⟩ := List.cons.inj heq
        exact (hminus cs rfl).elim
      · next heq =>
        obtain ⟨rfl, -⟩ := List.cons.inj heq
        exact (hplus cs rfl).elim
      · rfl

/-! ### Exponents -/

theorem Reads.is_of_all (hm : d.mantissa = ofDigits ds) (hs : d.scale = places) :
    d.Is (ofDigits ds / 10 ^ places) := by
  rw [Is, hm, hs]
  field_simp

theorem Reads.near (h : d.Reads ds places) : d.Near (ofDigits ds / 10 ^ places) := by
  cases h with
  | all hm hs => exact (is_of_all hm hs).near
  | cut _ _ hnear => exact hnear

theorem Reads.all_of_fits (h : d.Reads ds places) (hd : ofDigits ds < limit)
    (hp : places ≤ maxScale) : d.Is (ofDigits ds / 10 ^ places) ∧ d.scale = places := by
  cases h with
  | all hm hs => exact ⟨is_of_all hm hs, hs⟩
  | cut hout => omega

/-- What a decimal that is read from a text is to the number that the text spells. -/
structure Approximates (d : Decimal) (n : Numeral) : Prop where
  negative_eq : d.negative = n.negative
  near : d.Near n.magnitude
  is_of_fits : n.FitsDecimal → d.Is n.magnitude

variable {n : Numeral} {digits : List Char}

theorem ReadFrom.approximates (h : d.ReadFrom n) : d.Approximates n where
  negative_eq := h.negative_eq
  near := by
    rw [Numeral.magnitude_of_none h.no_exponent]
    exact h.reads.near
  is_of_fits := fun ⟨hdigits, hplaces, _⟩ => by
    rw [Numeral.magnitude_of_none h.no_exponent]
    exact (h.reads.all_of_fits hdigits hplaces).1

theorem ReadFrom.shiftUp? (h : d.ReadFrom n) (hr : d.shiftUp? (ofDigits digits) = some r) :
    r.Approximates { n with exponent := some (false, digits) } where
  negative_eq := (negative_shiftUp? hr).trans h.negative_eq
  near := by
    rw [Numeral.magnitude_of_some h.no_exponent, Numeral.magnitude_of_none h.no_exponent]
    cases h.reads with
    | all hm hs => exact ((Reads.is_of_all hm hs).shiftUp? hr).near
    | cut _ hfull hnear => exact hnear.shiftUp? hfull hr
  is_of_fits := fun ⟨hdigits, hplaces, _⟩ => by
    rw [Numeral.magnitude_of_some h.no_exponent, Numeral.magnitude_of_none h.no_exponent]
    exact (h.reads.all_of_fits hdigits hplaces).1.shiftUp? hr

theorem ReadFrom.shiftDown? (h : d.ReadFrom n) (hr : d.shiftDown? (ofDigits digits) = some r) :
    r.Approximates { n with exponent := some (true, digits) } where
  negative_eq := (negative_shiftDown? hr).trans h.negative_eq
  near := by
    rw [Numeral.magnitude_of_some h.no_exponent, Numeral.magnitude_of_none h.no_exponent]
    exact h.reads.near.shiftDown? hr
  is_of_fits := fun ⟨hdigits, hplaces, hlast⟩ => by
    rw [Numeral.magnitude_of_some h.no_exponent, Numeral.magnitude_of_none h.no_exponent]
    obtain ⟨his, hscale⟩ := h.reads.all_of_fits hdigits hplaces
    refine his.shiftDown? ?_ hr
    simp only [Numeral.scaled] at hlast
    omega

theorem readExponent?_eq (cs : List Char) :
    readExponent? cs = (Numeral.exponentDigits? cs).map ofDigits := by
  rw [Numeral.exponentDigits?, apply_ite (Option.map ofDigits)]
  by_cases hplus : ∃ rest, cs = '+' :: rest
  · obtain ⟨rest, rfl⟩ := hplus
    rfl
  · have hnot : ∀ rest, cs = '+' :: rest → False := fun rest h => hplus ⟨rest, h⟩
    rw [readExponent?, Numeral.withoutPlus]
    · rfl
    · exact hnot
    · exact hnot

theorem readExponent?_eq_some (h : readExponent? cs = some k) : dropUnderscores cs = cs ∧
    ∃ digits, Numeral.exponentDigits? cs = some digits ∧ ofDigits digits = k := by
  rw [readExponent?_eq] at h
  obtain ⟨digits, hdigits, hk⟩ := Option.map_eq_some_iff.1 h
  exact ⟨Numeral.dropUnderscores_exponent hdigits, digits, hdigits, hk⟩

theorem ofScientific?_approximates (h : ofScientific? cs = some d) :
    ∃ n, Numeral.ofDecimalText? (dropUnderscores cs) = some n ∧ d.Approximates n := by
  unfold ofScientific? at h
  split at h
  · nomatch h
  · next mark exponent hmark =>
    obtain ⟨base, hbase, h⟩ := Option.bind_eq_some_iff.1 h
    obtain ⟨n, hn, hread⟩ := ofPlain?_readFrom hbase
    split at h
    · next rest =>
      obtain ⟨k, hk, h⟩ := Option.bind_eq_some_iff.1 h
      obtain ⟨hdrop, digits, hdigits, rfl⟩ := readExponent?_eq_some hk
      refine ⟨_, Numeral.ofDecimalText?_of_mark hmark hn ?_, hread.shiftDown? h⟩
      rw [dropUnderscores_cons (by decide), hdrop, Numeral.exponent?, hdigits]
      rfl
    · next hminus =>
      obtain ⟨k, hk, h⟩ := Option.bind_eq_some_iff.1 h
      obtain ⟨hdrop, digits, hdigits, rfl⟩ := readExponent?_eq_some hk
      refine ⟨_, Numeral.ofDecimalText?_of_mark hmark hn ?_, hread.shiftUp? h⟩
      rw [hdrop, Numeral.exponent?, hdigits]
      · rfl
      · exact hminus

theorem approximates_ofChars? (h : ofChars? cs = some d) :
    ∃ n, Numeral.ofDecimalText? (dropUnderscores cs) = some n ∧ d.Approximates n := by
  unfold ofChars? at h
  split at h
  · next hplain =>
    cases h
    obtain ⟨n, hn, hread⟩ := ofPlain?_readFrom hplain
    exact ⟨n, Numeral.ofDecimalText?_of_plain? hn, hread.approximates⟩
  · exact ofScientific?_approximates h

end FairShare.Decimal
