import ScriptMinifier.Output.Numeral
import ScriptMinifier.Proofs.Text.Renaming

/-! Numerals made short, character by character.

Shortening goes over the segments of a text with an eye on the character before and the character
after a word. `shortenFrom` starts it behind a given character, and goes over words, dollar signs,
other characters and placeholders one at a time. So does every proof about it
(`Text.numeralwise`). -/
namespace ScriptMinifier

/-- Induction over what shortening goes over: placeholders, words, numbers after a dollar sign, and
other characters. A placeholder that is not closed reaches to the end. -/
theorem Text.numeralwise {motive : Text → Prop} (nil : motive [])
    (placeholder : ∀ rest, motive (afterMark rest) → motive (mark :: rest))
    (word : ∀ w t, w ≠ [] → (∀ c ∈ w, isWordChar c = true) → StartsNoWord t → motive t →
      motive (w ++ t))
    (dollar : ∀ w t, w ≠ [] → (∀ c ∈ w, isWordChar c = true) → StartsNoWord t → motive t →
      motive ('$' :: (w ++ t)))
    (other : ∀ c t, isOtherChar c = true → c ≠ '$' ∨ StartsNoWord t → motive t → motive (c :: t))
    (t : Text) :
    motive t := by
  -- a dollar sign may stand before what is left
  suffices hboth : motive t ∧ motive ('$' :: t) from hboth.1
  induction t using Text.wordwise with
  | nil => exact ⟨nil, other '$' [] (by decide) (.inr nofun) nil⟩
  | placeholder rest ih =>
    have hfirst := placeholder rest ih.1
    refine ⟨hfirst, other '$' _ (by decide) (.inr ?_) hfirst⟩
    intro c t hc
    rw [← (List.cons.inj hc).1]
    exact not_isWordChar_mark
  | word w t hne hw ht ih => exact ⟨word w t hne hw ht ih.1, dollar w t hne hw ht ih.1⟩
  | other c t hc ih =>
    have hfirst : motive (c :: t) := by
      by_cases hdollar : c = '$'
      · rw [hdollar]
        exact ih.2
      · exact other c t hc (.inl hdollar) ih.1
    exact ⟨hfirst, other '$' _ (by decide) (.inr (startsNoWord_of_isOtherChar hc t)) hfirst⟩

namespace Output

open Literal (placeholder)
open Text (mark Segment isWordChar isOtherChar StartsNoWord segments)

/-- A text with its numerals made short, after a character. -/
def shortenFrom (before : Option Char) (t : Text) : Text := shortenSegments before (segments t)

theorem nextChar_segments (t : Text) : nextChar (segments t) = t.head? := by
  cases t with
  | nil =>
    rw [segments]
    rfl
  | cons c rest =>
    rw [segments]
    split
    · rfl
    · split <;> rfl

section

variable {before : Option Char} {t : Text}

@[simp] theorem shortenFrom_nil : shortenFrom before [] = [] := by
  rw [shortenFrom, segments]
  rfl

theorem shortenFrom_word {w : Text} (hne : w ≠ []) (hw : ∀ c ∈ w, isWordChar c = true)
    (ht : StartsNoWord t) :
    shortenFrom before (w ++ t) = shortenWord before t.head? w ++ shortenFrom w.getLast? t := by
  rw [shortenFrom, Text.segments_word hne hw ht, shortenSegments, nextChar_segments]
  rfl

theorem shortenFrom_placeholder (k : Nat) :
    shortenFrom before (placeholder k ++ t) = placeholder k ++ shortenFrom
    (placeholder k).getLast? t := by
  rw [shortenFrom, Literal.segments_placeholder]
  rfl

/-- A single character between words is a run of its own. -/
theorem segments_other_single {c : Char} (hc : isOtherChar c = true)
    (h : ∀ d ∈ t.head?, isOtherChar d = false) :
    segments (c :: t) = .other [c] :: segments t := by
  rw [Text.segments_of_isOtherChar hc]
  cases t with
  | nil => rfl
  | cons d rest =>
    have hd : isOtherChar d = false := h d rfl
    rw [List.takeWhile_cons_of_neg (by simp [hd]), List.dropWhile_cons_of_neg (by simp [hd])]

theorem shortenFrom_dollar {w : Text} (hne : w ≠ []) (hw : ∀ c ∈ w, isWordChar c = true)
    (ht : StartsNoWord t) :
    shortenFrom before ('$' :: (w ++ t)) =
      (match hexValue? w with
        | some n => numeral n
        | none => '$' :: w) ++ shortenFrom w.getLast? t := by
  have hhead : ∀ d ∈ (w ++ t).head?, isOtherChar d = false := by
    obtain ⟨c, rest, rfl⟩ := List.exists_cons_of_ne_nil hne
    intro d hd
    rw [← Option.some.inj hd]
    simp [isOtherChar, hw c List.mem_cons_self]
  rw [shortenFrom, segments_other_single (by decide) hhead, Text.segments_word hne hw ht,
    shortenSegments, if_pos (by decide)]
  cases hexValue? w <;> rfl

theorem shortenSegments_other_cons (before' : Option Char) (c d : Char) (r : Text)
    (gs : List Segment) :
    shortenSegments before (.other (c :: d :: r) :: gs) = c :: shortenSegments before'
    (.other (d :: r) :: gs) := by
  match gs with
  | [] => rfl
  | .placeholder u :: rest => rfl
  | .other u :: rest => rfl
  | .word w :: rest =>
    rw [shortenSegments, shortenSegments, List.getLast?_cons_cons, List.dropLast_cons_cons]
    split
    · cases hexValue? w <;> rfl
    · rfl

/-- A character between words stays, unless it is a dollar sign before one. -/
theorem shortenFrom_other {c : Char} (hc : isOtherChar c = true) (h : c ≠ '$' ∨ StartsNoWord t) :
    shortenFrom before (c :: t) = c :: shortenFrom (some c) t := by
  rw [shortenFrom, shortenFrom]
  cases t with
  | nil =>
    rw [segments_other_single hc (by simp), segments]
    rfl
  | cons d rest =>
    by_cases hd : isOtherChar d = true
    · rw [Text.segments_of_isOtherChar hc, List.takeWhile_cons_of_pos hd,
        List.dropWhile_cons_of_pos hd, Text.segments_of_isOtherChar hd, shortenSegments_other_cons]
    · rw [segments_other_single hc (by simpa using hd)]
      by_cases hmark : d = mark
      · rw [hmark, segments, if_pos rfl]
        rfl
      · have hw : isWordChar d = true := by simpa [isOtherChar, hmark] using hd
        have hdollar : c ≠ '$' := h.resolve_right fun hstart => by
          rw [hstart d rest rfl] at hw
          cases hw
        rw [Text.segments_of_isWordChar hw, shortenSegments, if_neg (by simpa using hdollar)]
        rfl

/-- The character before a text counts only when it is a point. -/
theorem shortenFrom_some {c : Char} (hc : c ≠ '.') :
    shortenFrom (some c) t = shortenNumerals t := by
  rw [shortenFrom, shortenNumerals]
  match segments t with
  | [] => rfl
  | .placeholder u :: rest => rfl
  | [.other u] => rfl
  | .other u :: .placeholder v :: rest => rfl
  | .other u :: .other v :: rest => rfl
  | .other u :: .word w :: rest => rw [shortenSegments, shortenSegments]
  | .word w :: rest =>
    have hword : ∀ after, shortenWord (some c) after w = shortenWord none after w := by
      intro after
      unfold shortenWord shortenNumber
      simp [hc]
    rw [shortenSegments, shortenSegments, hword]

theorem shortenWord_some {c : Char} (hc : c ≠ '.') (w : Text) :
    shortenWord before (some c) w = shortenWord before none w := by
  unfold shortenWord shortenNumber
  simp [hc]

/-- What follows a word is made short as if it stood alone. -/
theorem shortenFrom_getLast? {w : Text} (hne : w ≠ []) (hw : ∀ c ∈ w, isWordChar c = true) :
    shortenFrom w.getLast? t = shortenNumerals t := by
  rw [List.getLast?_eq_some_getLast hne, shortenFrom_some]
  rintro heq
  exact absurd (hw _ (List.getLast_mem hne)) (by rw [heq]; decide)

/-- So is what follows a placeholder. -/
theorem shortenFrom_mark (rest : Text) :
    shortenFrom before (mark :: rest) = mark :: Text.throughMark rest ++ shortenNumerals
    (Text.afterMark rest) := by
  have hlast : shortenFrom (mark :: Text.throughMark rest).getLast? (Text.afterMark rest) =
      shortenNumerals (Text.afterMark rest) := by
    rcases Text.throughMark_cases rest with ⟨inner, -, hthrough⟩ | ⟨-, -, hafter⟩
    · rw [hthrough, ← List.cons_append, List.getLast?_concat, shortenFrom_some (by decide)]
    · rw [hafter, shortenFrom_nil]
      exact (@shortenFrom_nil none).symm
  rw [← hlast, shortenFrom, segments, if_pos rfl]
  rfl

end

end Output
end ScriptMinifier
