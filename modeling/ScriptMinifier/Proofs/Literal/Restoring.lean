import ScriptMinifier.Literal.Table
import ScriptMinifier.Proofs.Text.Segment
import ScriptMinifier.Text.Blank

/-! Putting literals back.

A text read from a script holds its literals as numbered placeholders. `Holds` pairs such a
text with what was written, one character or one literal at a time. A text that holds
something restores to it (`Holds.restore_eq`), its placeholders are exactly the numbers it
holds, in order (`Holds.numbersIn_eq`), and both stay so when blanks are cut from its end
(`Holds.trimEnd`). -/
namespace ScriptMinifier

open Text (mark Segment segments isBlank)

/-! ### The number of a placeholder -/

namespace Literal

theorem mark_not_mem_ofNat (n : Nat) : mark ∉ Text.ofNat n := by
  intro h
  have := Nat.isDigit_of_mem_toDigits (by decide) (by decide) h
  revert this
  decide

theorem digitValue_of_isDigit {c : Char} (h : c.isDigit = true) :
    Text.digitValue c = c.toNat - '0'.toNat := if_pos h

theorem isDigitOf_ten {c : Char} (h : c.isDigit = true) : Text.isDigitOf 10 c = true := by
  have hval := h
  rw [Text.isDigitOf, digitValue_of_isDigit h, Char.isAlphanum, h, Bool.or_true, Bool.true_and,
    decide_eq_true_eq]
  simp only [Char.isDigit, Bool.and_eq_true, decide_eq_true_eq, ge_iff_le] at hval
  have hle : c.toNat ≤ 57 := UInt32.le_iff_toNat_le.1 hval.2
  show c.toNat - 48 < 10
  omega

theorem readDigits_eq_ofDigitChars {t : Text} (h : ∀ c ∈ t, c.isDigit = true) (n : Nat) :
    Text.readDigits 10 t n = Nat.ofDigitChars 10 t n := by
  rw [Nat.ofDigitChars_eq_foldl, Text.readDigits]
  induction t generalizing n with
  | nil => rfl
  | cons c rest ih =>
    rw [List.foldl_cons, List.foldl_cons, digitValue_of_isDigit (h c List.mem_cons_self),
      Nat.mul_comm]
    exact ih (fun d hd => h d (List.mem_cons_of_mem c hd)) _

/-- Reading a number gives back what was written. -/
theorem readNat?_ofNat (n : Nat) : Text.readNat? 10 (Text.ofNat n) = some n := by
  have hdigits : ∀ c ∈ Text.ofNat n, c.isDigit = true :=
    fun c hc => Nat.isDigit_of_mem_toDigits (by decide) (by decide) hc
  have hall : (Text.ofNat n).all (Text.isDigitOf 10) = true :=
    List.all_eq_true.2 fun c hc => isDigitOf_ten (hdigits c hc)
  rw [Text.readNat?, if_pos ⟨Nat.toDigits_ne_nil, hall⟩, readDigits_eq_ofDigitChars hdigits]
  exact congrArg some Nat.ofDigitChars_ten_toDigits

theorem dropStart?_ofNat_plus (n : Nat) : Text.dropStart? ['+'] (Text.ofNat n) = none := by
  match h : Text.ofNat n with
  | [] => rfl
  | c :: rest =>
    have hc : c.isDigit = true :=
      Nat.isDigit_of_mem_toDigits (by decide) (by decide) (show c ∈ Text.ofNat n by simp [h])
    have hne : '+' ≠ c := by
      rintro rfl
      cases hc
    simp [Text.dropStart?, hne]

/-- A placeholder stands for the number it was made of, if that fits. -/
theorem placeholderId?_eq_filter (n : Nat) :
    placeholderId? (placeholder n) = (some n).filter (· < indexLimit) := by
  have hstart : Text.dropStart? [mark] (placeholder n) = some (Text.ofNat n ++ [mark]) := by
    simp [Text.dropStart?, placeholder]
  have hend : Text.dropEnd? [mark] (Text.ofNat n ++ [mark]) = some (Text.ofNat n) := by
    simp [Text.dropEnd?, List.isSuffixOf_iff_suffix]
  rw [placeholderId?, hstart, Option.bind_some, hend, Option.bind_some, readIndex?,
    dropStart?_ofNat_plus, Option.getD_none, readNat?_ofNat]

theorem placeholderId?_placeholder {n : Nat} (h : n < indexLimit) :
    placeholderId? (placeholder n) = some n := by
  rw [placeholderId?_eq_filter]
  simp [h]

/-! ### The numbers of a text -/

/-- The number of a placeholder; other segments have none. -/
def numbersOf : Segment → List Nat
  | .placeholder t => (placeholderId? t).toList
  | _ => []

/-- The numbers of the placeholders of a text, in order. -/
def numbersIn (t : Text) : List Nat := (segments t).flatMap numbersOf

@[simp] theorem numbersIn_nil : numbersIn [] = [] := by simp [numbersIn, segments]

theorem numbersIn_cons {c : Char} (hc : c ≠ mark) (t : Text) : numbersIn (c :: t) = numbersIn t :=
  Text.flatMap_segments_cons (f := numbersOf) (g := fun _ => []) (by simp [numbersOf])
    (by simp [numbersOf]) hc t

theorem numbersIn_placeholder {n : Nat} (h : n < indexLimit) (t : Text) :
    numbersIn (placeholder n ++ t) = n :: numbersIn t := by
  have hsegments : segments (placeholder n ++ t) = .placeholder (placeholder n) :: segments t :=
    Text.segments_placeholder (mark_not_mem_ofNat n) t
  have hnumber : numbersOf (.placeholder (placeholder n)) = [n] := by
    rw [numbersOf, placeholderId?_placeholder h, Option.toList_some]
  rw [numbersIn, hsegments, List.flatMap_cons, hnumber]
  rfl

end Literal

open Literal

/-! ### Restoring -/

namespace Literals

variable {ls : Literals}

@[simp] theorem restore_nil : ls.restore [] = [] := by simp [restore, segments]

theorem restore_cons {c : Char} (hc : c ≠ mark) (t : Text) :
    ls.restore (c :: t) = c :: ls.restore t :=
  Text.flatMap_segments_cons (f := ls.restoreSegment) (g := fun c => [c])
    (by simp [restoreSegment, Segment.text]) (by simp [restoreSegment, Segment.text]) hc t

theorem restore_placeholder {n : Nat} {raw : Text} (hlimit : n < indexLimit)
    (h : ls.get? n = some raw)
    (t : Text) : ls.restore (placeholder n ++ t) = raw ++ ls.restore t := by
  have hsegments : segments (placeholder n ++ t) = .placeholder (placeholder n) :: segments t :=
    Text.segments_placeholder (mark_not_mem_ofNat n) t
  have hfirst : ls.restoreSegment (.placeholder (placeholder n)) = raw := by
    rw [restoreSegment, lookup?, placeholderId?_placeholder hlimit, Option.bind_some, h,
      Option.getD_some]
  rw [restore, hsegments, List.flatMap_cons, hfirst]
  rfl

end Literals

/-! ### Cutting blanks from the end -/

namespace Text

/-- Trimming stops at a character that is no blank. -/
theorem trimEnd_append {s : Text} {c : Char} (hc : isBlank c = false) (t : Text) :
    trimEnd (s ++ [c] ++ t) = s ++ [c] ++ trimEnd t := by
  rw [trimEnd, trimEnd, List.reverse_append, List.dropWhile_append]
  split
  · rename_i hall
    rw [List.isEmpty_iff] at hall
    rw [hall, List.reverse_append, List.reverse_singleton, List.singleton_append,
      List.dropWhile_cons_of_neg (by simp [hc])]
    simp
  · simp

theorem trimEnd_cons_of_blank {c : Char} {t : Text} (ht : trimEnd t = []) (hc : isBlank c = true) :
    trimEnd (c :: t) = [] := by
  rw [trimEnd, List.reverse_eq_nil_iff] at ht ⊢
  rw [List.reverse_cons, List.dropWhile_append, ht]
  simp [hc]

theorem trimEnd_cons_of_not_blank {c : Char} {t : Text} (h : trimEnd t ≠ [] ∨ isBlank c = false) :
    trimEnd (c :: t) = c :: trimEnd t := by
  by_cases hc : isBlank c = true
  · have ht : (t.reverse.dropWhile isBlank).isEmpty = false := by
      rcases h with ht | hf
      · rw [trimEnd, Ne, List.reverse_eq_nil_iff] at ht
        simpa using ht
      · rw [hc] at hf
        cases hf
    rw [trimEnd, List.reverse_cons, List.dropWhile_append, ht]
    simp [trimEnd]
  · exact trimEnd_append (s := []) (by simpa using hc) t

end Text

/-! ### Texts that hold literals -/

/-- A text in which the literals of the given numbers are held as placeholders, beside what
it stands for. A literal ends in its quote, which is no blank. -/
inductive Holds (ls : Literals) : List Nat → Text → Text → Prop
  | nil : Holds ls [] [] []
  | char {ns : List Nat} {c : Char} {held written : Text} (hc : c ≠ mark)
      (rest : Holds ls ns held written) :
      Holds ls ns (c :: held) (c :: written)
  | literal {n : Nat} {ns : List Nat} {raw held written : Text} {quote : Char}
      (hget : ls.get? n = some (raw ++ [quote])) (hquote : isBlank quote = false)
      (rest : Holds ls ns held written) :
      Holds ls (n :: ns) (placeholder n ++ held) (raw ++ [quote] ++ written)

theorem Literals.lt_size_of_get? {ls : Literals} {n : Nat} {raw : Text} (h : ls.get? n = some raw) :
    n < ls.size :=
  (List.getElem?_eq_some_iff.1 h).1

namespace Holds

variable {ls : Literals} {ns ns' : List Nat} {held written held' written' : Text}

/-- A text that holds something restores to it. -/
theorem restore_eq (h : Holds ls ns held written) (hlimit : ls.size ≤ indexLimit) :
    ls.restore held = written := by
  induction h with
  | nil => exact Literals.restore_nil
  | char hc _ ih => rw [Literals.restore_cons hc, ih]
  | literal hget _ _ ih =>
    have hlt := Literals.lt_size_of_get? hget
    rw [Literals.restore_placeholder (by omega) hget, ih]

/-- The placeholders of a text are those it is said to hold. -/
theorem numbersIn_eq (h : Holds ls ns held written) (hlimit : ls.size ≤ indexLimit) :
    numbersIn held = ns := by
  induction h with
  | nil => exact numbersIn_nil
  | char hc _ ih => rw [numbersIn_cons hc, ih]
  | literal hget _ _ ih =>
    have hlt := Literals.lt_size_of_get? hget
    rw [numbersIn_placeholder (by omega), ih]

theorem append (h : Holds ls ns held written) (h' : Holds ls ns' held' written') :
    Holds ls (ns ++ ns') (held ++ held') (written ++ written') := by
  induction h with
  | nil => exact h'
  | char hc _ ih => exact .char hc ih
  | literal hget hquote _ ih =>
    rw [List.append_assoc, List.append_assoc]
    exact .literal hget hquote ih

/-- Text without marks holds itself. -/
theorem of_not_mem {t : Text} (h : mark ∉ t) : Holds ls [] t t := by
  induction t with
  | nil => exact .nil
  | cons c rest ih =>
    rw [List.mem_cons, not_or] at h
    exact .char (Ne.symm h.1) (ih h.2)

theorem eq_nil_iff (h : Holds ls ns held written) : held = [] ↔ written = [] := by
  cases h with
  | nil => rfl
  | char => simp
  | literal => simp [placeholder]

/-- An empty text holds no literal. -/
theorem eq_nil_of_nil (h : Holds ls ns [] written) : ns = [] := by
  generalize ht : ([] : Text) = held at h
  cases h with
  | nil => rfl
  | char => cases ht
  | literal => simp [placeholder] at ht

/-- Blanks at the end are no part of a literal, and cutting them loses none. -/
theorem trimEnd (h : Holds ls ns held written) :
    Holds ls ns (Text.trimEnd held) (Text.trimEnd written) := by
  induction h with
  | nil => exact .nil
  | @char ns c held written hc _ ih =>
    by_cases hblank : Text.trimEnd written = [] ∧ isBlank c = true
    · have hheld := ih.eq_nil_iff.2 hblank.1
      rw [Text.trimEnd_cons_of_blank hblank.1 hblank.2, Text.trimEnd_cons_of_blank hheld hblank.2]
      rw [hheld] at ih
      rw [ih.eq_nil_of_nil]
      exact .nil
    · rw [Decidable.not_and_iff_not_or_not, Bool.not_eq_true] at hblank
      rw [Text.trimEnd_cons_of_not_blank hblank,
        Text.trimEnd_cons_of_not_blank (hblank.imp_left (mt ih.eq_nil_iff.1))]
      exact .char hc ih
  | @literal n ns raw held written quote hget hquote _ ih =>
    have hmark : isBlank mark = false := by decide
    have hheld : Text.trimEnd (placeholder n ++ held) = placeholder n ++ Text.trimEnd held :=
      Text.trimEnd_append (s := mark :: Text.ofNat n) hmark held
    rw [hheld, Text.trimEnd_append hquote]
    exact .literal hget hquote ih

end Holds
end ScriptMinifier
