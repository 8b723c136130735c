import FairShare.Proofs.Decimal.Reading
import FairShare.Proofs.Volume.Printing

/-!
# Written numbers

The characters of a number whose parts are digits (`Numeral.Legal`) spell that number, so a decimal
that is read from them is near it. It is read as long as its digits fit, and the point can then be
moved as long as they still do.
-/

namespace FairShare

open Text

/-- The parts are digits, and there are some where there have to be. -/
structure Numeral.Legal (n : Numeral) : Prop where
  whole : isDigits n.whole
  fraction : ∀ c ∈ n.fraction, c.isDigit
  exponent : ∀ e ∈ n.exponent, isDigits e.2

namespace Numeral

/-- The characters after the sign and before the exponent. -/
def plainChars (n : Numeral) : List Char :=
  n.whole ++ if n.fraction.isEmpty then [] else '.' :: n.fraction

def sign (n : Numeral) : List Char := if n.negative then ['-'] else []

/-- How the sign may be written. -/
def signs (n : Numeral) : List (List Char) := if n.negative then [['-']] else [[], ['+']]

theorem sign_mem_signs (n : Numeral) : n.sign ∈ n.signs := by
  unfold sign signs
  split <;> exact List.mem_cons_self

/-- No sign is a digit, so there is none in front of digits alone. -/
theorem sign_eq_nil {n : Numeral} {sign : List Char} (hs : sign ∈ n.signs)
    (h : ∀ c ∈ sign, c.isDigit) : sign = [] ∧ n.negative = false := by
  unfold signs at hs
  split at hs
  · rw [List.mem_singleton.1 hs] at h
    exact absurd (h '-' List.mem_cons_self) (by decide)
  · next hneg =>
    rcases List.mem_cons.1 hs with rfl | hs
    · exact ⟨rfl, Bool.not_eq_true _ ▸ hneg⟩
    · rw [List.mem_singleton.1 hs] at h
      exact absurd (h '+' List.mem_cons_self) (by decide)

theorem chars_eq (n : Numeral) : n.chars = n.sign ++ n.plainChars ++ exponentText n.exponent := by
  rw [chars, sign, plainChars, List.append_assoc (if n.negative then ['-'] else [])]

namespace Legal
variable {n : Numeral} {c : Char}

theorem mem_plainChars (h : n.Legal) (hc : c ∈ n.plainChars) : c.isDigit ∨ c = '.' := by
  rw [plainChars, List.mem_append] at hc
  rcases hc with hc | hc
  · exact .inl ((isDigits_iff.1 h.whole).2 c hc)
  · split at hc
    · nomatch hc
    · rcases List.mem_cons.1 hc with rfl | hc
      · exact .inr rfl
      · exact .inl (h.fraction c hc)

/-- What a number is written with. -/
theorem mem_chars (h : n.Legal) (hc : c ∈ n.chars) :
    c.isDigit ∨ c ∈ ['.', '-', '+', 'e'] := by
  rw [chars_eq, List.mem_append, List.mem_append] at hc
  rcases hc with (hc | hc) | hc
  · rw [sign] at hc
    split at hc
    · rw [List.mem_singleton.1 hc]
      decide
    · nomatch hc
  · exact (h.mem_plainChars hc).imp_right fun hc => by rw [hc]; decide
  · unfold exponentText at hc
    split at hc
    · nomatch hc
    · next he =>
      rcases List.mem_cons.1 hc with rfl | hc
      · decide
      · rcases List.mem_cons.1 hc with rfl | hc
        · split <;> decide
        · exact .inl ((isDigits_iff.1 (h.exponent _ he)).2 c hc)

theorem dropUnderscores_chars (h : n.Legal) : dropUnderscores n.chars = n.chars := by
  refine List.filter_eq_self.2 fun c hc => bne_iff_ne.2 ?_
  rcases h.mem_chars hc with hc | hc
  · exact ne_of_isDigit hc rfl
  · rintro rfl
    revert hc
    decide

theorem trim_chars (h : n.Legal) : trim n.chars = n.chars := by
  have hmarks : ∀ c ∈ ['.', '-', '+', 'e'], ¬ isBlank c := by
    simp only [List.forall_mem_cons]
    exact ⟨by decide, by decide, by decide, by decide, List.forall_mem_nil _⟩
  exact trim_of_noBlanks fun c hc => (h.mem_chars hc).elim not_isBlank_of_isDigit (hmarks c)

theorem unsigned?_plainChars (h : n.Legal) (negative : Bool) :
    unsigned? negative n.plainChars = some ⟨negative, n.whole, n.fraction, none⟩ := by
  obtain ⟨hne, hwhole⟩ := isDigits_iff.1 h.whole
  have hpoint : ∀ c ∈ n.whole, (c != '.') = true := fun c hc =>
    bne_iff_ne.2 (ne_of_isDigit (hwhole c hc) rfl)
  have hbefore : beforePoint n.plainChars = n.whole := by
    rw [beforePoint, plainChars, List.takeWhile_append_of_pos hpoint]
    split <;> simp
  have hafter : afterPoint n.plainChars = n.fraction := by
    rw [afterPoint, plainChars, List.dropWhile_append_of_pos hpoint]
    split
    · next hempty => exact (List.isEmpty_iff.1 hempty).symm
    · rfl
  have hdigits : isDigits (n.whole ++ n.fraction) := isDigits_iff.2
    ⟨fun hnil => hne (List.append_eq_nil_iff.1 hnil).1, List.forall_mem_append.2 ⟨hwhole, h.fraction⟩⟩
  rw [unsigned?, hbefore, hafter, if_pos hdigits]

theorem exists_plainChars (h : n.Legal) : ∃ c cs, n.plainChars = c :: cs ∧ c.isDigit := by
  obtain ⟨hne, hwhole⟩ := isDigits_iff.1 h.whole
  obtain ⟨c, cs, hcs⟩ := List.exists_cons_of_ne_nil hne
  exact ⟨c, _, congrArg (· ++ _) hcs, hwhole c (hcs ▸ List.mem_cons_self)⟩

/-- Without a sign in front the first character is a digit. -/
theorem plain?_chars (h : n.Legal) :
    plain? (n.sign ++ n.plainChars) = some { n with exponent := none } := by
  have hunsigned := h.unsigned?_plainChars n.negative
  unfold sign
  cases hneg : n.negative with
  | true =>
    rw [hneg] at hunsigned
    exact hunsigned
  | false =>
    rw [hneg] at hunsigned
    obtain ⟨c, cs, hcs, hc⟩ := h.exists_plainChars
    rw [if_neg Bool.false_ne_true, List.nil_append, ← hunsigned, hcs, plain?]
    · rintro _ heq
      obtain ⟨rfl, -⟩ := List.cons.inj heq
      nomatch hc
    · rintro _ heq
      obtain ⟨rfl, -⟩ := List.cons.inj heq
      nomatch hc

theorem not_mark (h : n.Legal) : ∀ c ∈ n.sign ++ n.plainChars, (!Decimal.isExponentMark c) = true :=
  fun c hc => by
    rw [plain?_noMark h.plain?_chars c hc]
    rfl

end Legal

variable {n : Numeral} {digits : List Char}

theorem withoutPlus_of_digits (h : isDigits digits) : withoutPlus digits = digits := by
  unfold withoutPlus
  split
  · exact absurd ((isDigits_iff.1 h).2 _ List.mem_cons_self) (by decide)
  · rfl

theorem exponentDigits?_of_digits (h : isDigits digits) : exponentDigits? digits = some digits := by
  rw [exponentDigits?, withoutPlus_of_digits h, if_pos h]

theorem exponentDigits?_plus (h : isDigits digits) :
    exponentDigits? ('+' :: digits) = some digits := by
  rw [exponentDigits?, withoutPlus, if_pos h]

theorem Legal.ofDecimalText?_chars (h : n.Legal) : ofDecimalText? n.chars = some n := by
  rw [chars_eq, ofDecimalText?, List.takeWhile_append_of_pos h.not_mark,
    List.dropWhile_append_of_pos h.not_mark]
  cases he : n.exponent with
  | none =>
    have hplain := h.plain?_chars
    rw [exponentText, List.takeWhile_nil, List.append_nil, hplain, ← he]
    rfl
  | some e =>
    obtain ⟨negative, digits⟩ := e
    have hdigits : isDigits digits := h.exponent _ he
    have hexponent : exponent? ((if negative then '-' else '+') :: digits) =
        some (negative, digits) := by
      cases negative with
      | true => exact congrArg (Option.map (true, ·)) (exponentDigits?_of_digits hdigits)
      | false => exact congrArg (Option.map (false, ·)) (exponentDigits?_plus hdigits)
    have htake : (exponentText (some (negative, digits))).takeWhile
        (!Decimal.isExponentMark ·) = [] := rfl
    have hdrop : (exponentText (some (negative, digits))).dropWhile
        (!Decimal.isExponentMark ·) = exponentText (some (negative, digits)) := rfl
    rw [htake, hdrop, List.append_nil, h.plain?_chars, exponentText]
    simp only [Option.bind_eq_bind, Option.bind_some, hexponent, Option.map_some]
    rw [← he]

end Numeral

/-! ### Reading what fits -/

namespace Decimal
variable {d : Decimal} {ds cs fraction digits : List Char} {seen negative : Bool} {n : Numeral}

/-- A decimal with these digits, of which so many are places. -/
structure Holds (d : Decimal) (negative : Bool) (digits : List Char) (places : Nat) : Prop where
  negative_eq : d.negative = negative
  mantissa_eq : d.mantissa = ofDigits digits
  scale_eq : d.scale = places

theorem ofDigits_le_append (as bs : List Char) : ofDigits as ≤ ofDigits (as ++ bs) := by
  rw [ofDigits_append]
  have := Nat.le_mul_of_pos_right (ofDigits as) (Nat.pow_pos (by decide) : 0 < 10 ^ bs.length)
  omega

theorem exists_ofParts? {mantissa scale : Nat} (hm : mantissa < limit) (hs : scale ≤ maxScale) :
    ∃ d, ofParts? negative mantissa scale = some d :=
  ⟨_, dif_pos ⟨hm, hs⟩⟩

/-- There is room for another digit as long as the digits with all that follow fit. -/
theorem Holds.exists_longer {places scale : Nat} {c : Char} (hd : d.Holds negative ds places)
    (hdigits : ofDigits (ds ++ [c] ++ cs) < limit) (hscale : scale ≤ maxScale) :
    ∃ r, ofParts? d.negative (10 * d.mantissa + (c.toNat - 48)) scale = some r ∧
      r.Holds negative (ds ++ [c]) scale := by
  have hmantissa : 10 * d.mantissa + (c.toNat - 48) = ofDigits (ds ++ [c]) := by
    rw [ofDigits_append_digit, hd.mantissa_eq]
  have hlt : ofDigits (ds ++ [c]) < limit :=
    Nat.lt_of_le_of_lt (ofDigits_le_append _ cs) hdigits
  rw [hmantissa, hd.negative_eq]
  exact ⟨_, dif_pos ⟨hlt, hscale⟩, rfl, rfl, rfl⟩

theorem readFraction_of_fits {places : Nat} (hd : d.Holds negative ds places)
    (hcs : ∀ c ∈ cs, c.isDigit) (hseen : seen ∨ cs ≠ []) (hdigits : ofDigits (ds ++ cs) < limit)
    (hplaces : places + cs.length ≤ maxScale) :
    ∃ r, readFraction d seen cs = some r ∧ r.Holds negative (ds ++ cs) (places + cs.length) := by
  induction cs generalizing d ds seen places with
  | nil =>
    have hseen : seen = true := hseen.resolve_right fun hne => hne rfl
    rw [hseen, List.append_nil]
    exact ⟨d, rfl, hd⟩
  | cons c cs ih =>
    obtain ⟨hc, hcs⟩ := List.forall_mem_cons.1 hcs
    rw [List.length_cons] at hplaces
    have happend : ds ++ c :: cs = (ds ++ [c]) ++ cs := by
      rw [List.append_assoc, List.singleton_append]
    rw [happend] at hdigits ⊢
    obtain ⟨longer, hlonger, hlong⟩ := hd.exists_longer hdigits (show places + 1 ≤ maxScale by omega)
    obtain ⟨r, hr, hread⟩ := ih hlong hcs (.inl rfl) hdigits (by omega)
    refine ⟨r, ?_, ?_⟩
    · rw [← hd.scale_eq] at hlonger
      rw [readFraction, if_neg (ne_of_isDigit hc rfl), digit?, if_pos hc]
      simp only [appendFraction?, hlonger, hr]
    · rwa [Nat.add_assoc, Nat.add_comm 1] at hread

/-- Digits that fit are read, whatever follows. -/
theorem readWhole_append (hd : d.Holds negative ds 0) (hcs : ∀ c ∈ cs, c.isDigit)
    (hseen : seen ∨ cs ≠ []) (hdigits : ofDigits (ds ++ cs) < limit) (rest : List Char) :
    ∃ r, readWhole d seen (cs ++ rest) = readWhole r true rest ∧ r.Holds negative (ds ++ cs) 0 := by
  induction cs generalizing d ds seen with
  | nil =>
    have hseen : seen = true := hseen.resolve_right fun hne => hne rfl
    rw [hseen, List.append_nil]
    exact ⟨d, rfl, hd⟩
  | cons c cs ih =>
    obtain ⟨hc, hcs⟩ := List.forall_mem_cons.1 hcs
    have happend : ds ++ c :: cs = (ds ++ [c]) ++ cs := by
      rw [List.append_assoc, List.singleton_append]
    rw [happend] at hdigits ⊢
    obtain ⟨longer, hlonger, hlong⟩ := hd.exists_longer hdigits (Nat.zero_le _)
    obtain ⟨r, hr, hread⟩ := ih hlong hcs (.inl rfl) hdigits
    refine ⟨r, ?_, hread⟩
    rw [← hd.scale_eq] at hlonger
    rw [List.cons_append, readWhole, if_neg (ne_of_isDigit hc rfl), if_neg (ne_of_isDigit hc rfl),
      digit?, if_pos hc]
    simp only [appendWhole?, hlonger, hr]

theorem readWhole_of_fits (hd : d.Holds negative ds 0) (hcs : ∀ c ∈ cs, c.isDigit)
    (hfraction : ∀ c ∈ fraction, c.isDigit) (hseen : seen ∨ cs ≠ [])
    (hdigits : ofDigits (ds ++ (cs ++ fraction)) < limit) (hplaces : fraction.length ≤ maxScale) :
    ∃ r, readWhole d seen (cs ++ if fraction.isEmpty then [] else '.' :: fraction) = some r ∧
      r.Holds negative (ds ++ (cs ++ fraction)) fraction.length := by
  rw [← List.append_assoc] at hdigits ⊢
  obtain ⟨r, hr, hread⟩ := readWhole_append hd hcs hseen
    (Nat.lt_of_le_of_lt (ofDigits_le_append _ fraction) hdigits)
    (if fraction.isEmpty then [] else '.' :: fraction)
  rw [hr]
  cases fraction with
  | nil =>
    rw [List.append_nil]
    exact ⟨r, rfl, hread⟩
  | cons c fraction =>
    obtain ⟨r', hr', hread'⟩ := readFraction_of_fits hread hfraction (.inl rfl) hdigits
      (by rwa [Nat.zero_add])
    exact ⟨r', hr', by rwa [Nat.zero_add] at hread'⟩

/-- Digits and points do not begin with a sign, so the one in front is all there is. -/
theorem ofPlain?_signed (hcs : ∀ c ∈ cs, c.isDigit ∨ c = '.') {sign : List Char}
    (hs : sign ∈ n.signs) : ofPlain? (sign ++ cs) = readWhole (zero n.negative) false cs := by
  rw [Numeral.signs] at hs
  cases hneg : n.negative with
  | true =>
    rw [hneg, if_pos rfl, List.mem_singleton] at hs
    rw [hs]
    rfl
  | false =>
    rw [hneg, if_neg Bool.false_ne_true] at hs
    rcases List.mem_cons.1 hs with rfl | hs
    · rw [List.nil_append, ofPlain?]
      · rintro cs' rfl
        exact absurd (hcs '-' List.mem_cons_self) (by decide)
      · rintro cs' rfl
        exact absurd (hcs '+' List.mem_cons_self) (by decide)
    · rw [List.mem_singleton.1 hs]
      rfl

theorem holds_zero (negative : Bool) : (zero negative).Holds negative [] 0 := ⟨rfl, rfl, rfl⟩

theorem ofPlain?_of_fits (h : n.Legal) (hdigits : ofDigits (n.whole ++ n.fraction) < limit)
    (hplaces : n.fraction.length ≤ maxScale) : ∃ d, ofPlain? (n.sign ++ n.plainChars) = some d ∧
      d.Holds n.negative (n.whole ++ n.fraction) n.fraction.length := by
  obtain ⟨hne, hwhole⟩ := isDigits_iff.1 h.whole
  rw [ofPlain?_signed (fun _ => h.mem_plainChars) n.sign_mem_signs]
  exact readWhole_of_fits (holds_zero n.negative) hwhole h.fraction (.inr hne) hdigits hplaces

theorem readExponent?_of_digits (h : isDigits digits) :
    readExponent? digits = some (ofDigits digits) := by
  rw [readExponent?_eq, Numeral.exponentDigits?_of_digits h]
  rfl

theorem readExponent?_plus (h : isDigits digits) :
    readExponent? ('+' :: digits) = some (ofDigits digits) := by
  rw [readExponent?_eq, Numeral.exponentDigits?_plus h]
  rfl

theorem ofChars?_chars_of_none (he : n.exponent = none) :
    n.chars = n.sign ++ n.plainChars := by
  rw [Numeral.chars_eq, he, Numeral.exponentText, List.append_nil]

theorem ofPlain?_eq_none_of_mark {c : Char} (hc : c ∈ cs) (hmark : isExponentMark c)
    (hunder : c ≠ '_') : ofPlain? cs = none := by
  refine Option.eq_none_iff_forall_ne_some.2 fun d hd => ?_
  obtain ⟨m, hm, -⟩ := ofPlain?_readFrom hd
  have hno := Numeral.plain?_noMark hm c (List.mem_filter.2 ⟨hc, bne_iff_ne.2 hunder⟩)
  rw [hmark] at hno
  nomatch hno

/-- A number with an exponent is read as what comes before it, with the point moved. -/
theorem ofChars?_chars_of_some (h : n.Legal) (he : n.exponent = some (negative, digits)) :
    ofChars? n.chars = (ofPlain? (n.sign ++ n.plainChars)).bind fun base =>
      if negative then base.shiftDown? (ofDigits digits) else base.shiftUp? (ofDigits digits) := by
  have hdigits : isDigits digits := h.exponent _ he
  have hchars : n.chars =
      n.sign ++ n.plainChars ++ 'e' :: (if negative then '-' else '+') :: digits := by
    rw [Numeral.chars_eq, he, Numeral.exponentText]
  have hnone : ofPlain? n.chars = none := by
    rw [hchars]
    exact ofPlain?_eq_none_of_mark (List.mem_append_right _ List.mem_cons_self) rfl (by decide)
  have htake : n.chars.takeWhile (!isExponentMark ·) = n.sign ++ n.plainChars := by
    rw [hchars, List.takeWhile_append_of_pos h.not_mark, List.takeWhile_cons_of_neg (by decide),
      List.append_nil]
  have hdrop : n.chars.dropWhile (!isExponentMark ·) =
      'e' :: (if negative then '-' else '+') :: digits := by
    rw [hchars, List.dropWhile_append_of_pos h.not_mark, List.dropWhile_cons_of_neg (by decide)]
  rw [ofChars?, hnone]
  simp only [ofScientific?, hdrop, htake]
  cases ofPlain? (n.sign ++ n.plainChars) with
  | none => rfl
  | some base =>
    cases negative with
    | true =>
      show (Decimal.readExponent? digits).bind base.shiftDown? = _
      rw [readExponent?_of_digits hdigits]
      rfl
    | false =>
      show (Decimal.readExponent? ('+' :: digits)).bind base.shiftUp? = _
      rw [readExponent?_plus hdigits]
      rfl

end Decimal

end FairShare
