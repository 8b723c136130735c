import FairShare.Proofs.Outcome.Reading
import FairShare.Proofs.Volume.Numbers
import FairShare.Proofs.Volume.Refusal
import Mathlib.Data.Nat.Digits.Defs

/-!
# Digits alone

A run of digits of any length, blanks around it or not, is the volume that it has by the places of
its digits, or is too large. So a volume is read from its own digits, and that by several routes:
from the text, from a string of them in JSON, from a number in JSON, and from the value of either.
The digits of a number have no zero in front of others (`Numeral.isWholePart_toDigits`), so JSON
allows them as a number too.
-/

namespace FairShare

open Text

namespace Text
variable {before cs after : List Char}

/-- The value of a run of digits by their places, the last one being that of the units. -/
def positional (cs : List Char) : Nat := Nat.ofDigits 10 (cs.map fun c => c.toNat - 48).reverse

theorem ofDigits_eq_positional (cs : List Char) : ofDigits cs = positional cs := by
  induction cs using List.reverseRecOn with
  | nil => rfl
  | append_singleton cs c ih =>
    simp only [positional, List.map_append, List.map_cons, List.map_nil, List.reverse_append,
      List.reverse_singleton, List.singleton_append, Nat.ofDigits_cons]
    rw [ofDigits_append_digit, ih, positional, Nat.add_comm]

theorem trim_between (hbefore : ∀ c ∈ before, isBlank c) (hcs : ∀ c ∈ cs, ¬ isBlank c)
    (hne : cs ≠ []) (hafter : ∀ c ∈ after, isBlank c) : trim (before ++ (cs ++ after)) = cs := by
  have hfront : (cs ++ after).dropWhile isBlank = cs ++ after := by
    obtain ⟨c, cs, rfl⟩ := List.exists_cons_of_ne_nil hne
    exact List.dropWhile_cons_of_neg (hcs c List.mem_cons_self)
  rw [trim, List.dropWhile_append_of_pos hbefore, hfront, List.reverse_append,
    List.dropWhile_append_of_pos fun c hc => hafter c (List.mem_reverse.1 hc),
    dropWhile_isBlank fun c hc => hcs c (List.mem_reverse.1 hc), List.reverse_reverse]

end Text

namespace Numeral
variable {cs : List Char}

/-- A zero in front would be one digit more than the number has. -/
theorem isWholePart_toDigits (n : Nat) : isWholePart (Nat.toDigits 10 n) := by
  obtain ⟨hne, hall⟩ := isDigits_iff.1 (isDigits_toDigits n)
  have hvalue := ofDigits_toDigits n
  have hlength : ∀ k, 0 < k → ((Nat.toDigits 10 n).length ≤ k ↔ n < 10 ^ k) := fun _ hk =>
    Nat.length_toDigits_le_iff (by decide) hk
  generalize Nat.toDigits 10 n = digits at *
  unfold isWholePart
  split
  · exact absurd rfl hne
  · rfl
  · next c cs hzero =>
    refine Bool.and_eq_true_iff.2 ⟨bne_iff_ne.2 ?_, List.all_eq_true.2 hall⟩
    rintro rfl
    have hpos : 0 < cs.length := List.length_pos_iff.2 fun hnil => hzero rfl hnil
    have hlt : n < 10 ^ cs.length := hvalue ▸ ofDigits_lt (List.forall_mem_cons.1 hall).2
    have hle := (hlength cs.length hpos).2 hlt
    simp at hle

theorem ofChars?_of_isWholePart (h : isWholePart cs) :
    Numeral.ofChars? cs = some ⟨false, cs, [], none⟩ := by
  have hall := (isDigits_iff.1 (isDigits_of_isWholePart h)).2
  have htake : cs.takeWhile Char.isDigit = cs := List.takeWhile_eq_self_iff.2 hall
  have hdrop : cs.dropWhile Char.isDigit = [] := List.dropWhile_eq_nil_iff.2 hall
  unfold Numeral.ofChars?
  split
  next negative unsigned heq =>
    split at heq
    · exact absurd rfl (ne_of_isDigit (hall '-' List.mem_cons_self) rfl)
    · cases heq
      rw [htake, hdrop, if_pos h]
      rfl

theorem chars_ofNat (n : Nat) : (ofNat n).chars = Nat.toDigits 10 n := by
  simp [chars, ofNat, exponentText]

theorem text_ofNat (v : Volume) : (ofNat v.units).text = v.text := by
  rw [text, chars_ofNat, ← v.toList_text, String.ofList_toList]

theorem storedText_ofNat (v : Volume) : (ofNat v.units).storedText = v.text := by
  have hinteger : (ofNat v.units).isInteger := rfl
  rw [storedText, if_pos hinteger]
  split
  · next hzero =>
    have hchars : v.text.toList = ['0'] := v.toList_text.trans hzero
    rw [← String.ofList_toList (s := v.text), hchars]
  · exact text_ofNat v

end Numeral

namespace Json

theorem isBare_of_isDigit {c : Char} (hc : c.isDigit) : isBare c := by
  have hne : ∀ e, e.isDigit = false → c ≠ e := fun e => ne_of_isDigit hc
  simp [isBare, isBlank, mark?, hne]

/-- The digits of a number are one token, and it stands for that number. -/
theorem legibleNumber_ofNat (n : Nat) : LegibleNumber (.ofNat n) where
  bare c hc := by
    rw [Numeral.chars_ofNat] at hc
    exact isBare_of_isDigit ((isDigits_iff.1 (isDigits_toDigits n)).2 c hc)
  read := by
    rw [Numeral.chars_ofNat, Numeral.ofChars?_of_isWholePart (Numeral.isWholePart_toDigits n)]
    rfl

theorem compact_ofNat (v : Volume) : (number (.ofNat v.units)).compact = v.text :=
  Numeral.text_ofNat v

end Json

namespace Volume
variable {depth : Nat}

/-- Read from a number that is handed on as the digits that it is written in. -/
theorem recovers_ofNat (v : Volume) :
    Volume.decode.Recovers depth (.number (.ofNat v.units)) v := by
  have hread : ∀ route d, Volume.decode route d (.number (.ofNat v.units)) = .ok v := by
    intro route d
    rw [Json.decode_number]
    cases route with
    | text => rw [Numeral.text_ofNat, ofText_text]; rfl
    | value => rw [Numeral.storedText_ofNat, ofText_text]; rfl
  exact ⟨.number (Json.legibleNumber_ofNat _), fun d _ => hread .text d,
    fun d _ => ⟨_, rfl, hread .value d⟩⟩

theorem ofText_between {offered : String} {before digits after : List Char}
    (hoffered : offered.toList = before ++ (digits ++ after)) (hbefore : ∀ c ∈ before, isBlank c)
    (hdigits : isDigits digits) (hafter : ∀ c ∈ after, isBlank c) : ofText offered =
      if h : positional digits < limit then .ok ⟨positional digits, h⟩
      else .error (.overflow offered) := by
  obtain ⟨hne, hall⟩ := isDigits_iff.1 hdigits
  have htrim : trim offered.toList = digits := by
    rw [hoffered]
    exact trim_between hbefore (fun c hc => not_isBlank_of_isDigit (hall c hc)) hne hafter
  rw [ofText_of_digits (htrim ▸ hdigits), htrim, ofDigits_eq_positional, ofNat?]
  by_cases hlt : positional digits < limit
  · simp [hlt]
  · simp [hlt]

/-- Digits alone, between blanks, are the volume that they spell or are out of range, however many
they are. So each volume is read from its own digits, and in JSON from a string of them and from the
bare digits, by either route from a text and from a value without one. -/
theorem ofText_digits_and_back :
    (∀ (offered : String) (before digits after : List Char), (∀ c ∈ before, isBlank c) →
      isDigits digits → (∀ c ∈ after, isBlank c) → offered.toList = before ++ (digits ++ after) →
      ofText offered = if h : positional digits < limit then .ok ⟨positional digits, h⟩
        else .error (.overflow offered)) ∧
    ∀ v : Volume, ofText v.text = .ok v ∧
      (Json.number (.ofNat v.units)).compact = v.text ∧
      ∀ j ∈ [v.toJson, .number (.ofNat v.units)],
        Json.readText Volume.decode j.compact = .ok v ∧
        Json.readValue Volume.decode j.compact = .ok v ∧
        ∃ w, Json.valueOf? j = some w ∧ Json.decodeValue Volume.decode w = .ok v := by
  refine ⟨?_, ?_⟩
  · intro offered before digits after hbefore hdigits hafter hoffered
    exact ofText_between hoffered hbefore hdigits hafter
  · intro v
    refine ⟨v.ofText_text, Json.compact_ofNat v, ?_⟩
    intro j hj
    have hrecovers : Volume.decode.Recovers 0 j v := by
      rcases List.mem_pair.1 hj with rfl | rfl
      · exact v.recovers
      · exact v.recovers_ofNat
    have hdepth : 0 ≤ Json.maxDepth := Nat.zero_le _
    obtain ⟨htext, hvalue⟩ := hrecovers.read_compact hdepth
    exact ⟨htext, hvalue, hrecovers.value _ hdepth⟩

/-- Seven with zeros in front, between an em space and a no-break space, the limit itself, and the
volume below it as a bare number. -/
theorem ofText_digits_and_back_sample :
    ofText "\u2003007\u00a0" = .ok (.clamp 7) ∧
    ofText " 0340282366920938463463374607431768211456\n" =
      .error (.overflow " 0340282366920938463463374607431768211456\n") ∧
    Json.readText Volume.decode (Json.number (.ofNat (limit - 1))).compact =
      .ok (.clamp (limit - 1)) := by
  obtain ⟨hread, hback⟩ := ofText_digits_and_back
  refine ⟨?_, ?_, ?_⟩
  · rw [hread _ ['\u2003'] ['0', '0', '7'] ['\u00a0'] (by simp [isBlank]) (by decide)
      (by simp [isBlank]) (by decide)]
    rfl
  · have hdigits : isDigits "0340282366920938463463374607431768211456".toList := by decide +kernel
    rw [hread _ [' '] _ ['\n'] (by simp [isBlank]) hdigits (by simp [isBlank]) (by decide +kernel)]
    rfl
  · exact ((hback (.clamp (limit - 1))).2.2 _ (List.mem_pair.2 (.inr rfl))).1

end Volume
end FairShare
