import ScriptMinifier.Proofs.Output.NumeralLengths
import ScriptMinifier.Proofs.Output.Writing
import ScriptMinifier.Proofs.Syntax.Recasting

/-! How long texts are written.

When names take the place of words in a text, what is written for it grows by as much as the text
does (`writtenLength_recast`). Names and words stay as they are when numerals are made short; a
short name after a dollar sign that is a number gets a digit for the sign; empty lines are dropped
in one text where they are in the other; and a placeholder with a word in it stands for no literal,
before and after. -/
namespace ScriptMinifier

open Text (mark isWordChar isIdent StartsNoWord byteLength)
open Layout (dropEmptyLines)

/-! ### Placeholders that stand for nothing -/

namespace Literals

variable {ls : Literals} {inner : Text}

/-- A placeholder with a letter in it stands for nothing. -/
theorem lookup?_of_mem {c : Char} (hmem : c ∈ inner) (hword : isWordChar c = true)
    (hdigit : c.isDigit = false) :
    ls.lookup? (mark :: (inner ++ [mark])) = none := by
  have hplus : c ≠ '+' := by
    rintro rfl
    cases hword
  have hstart : Text.dropStart? [mark] (mark :: (inner ++ [mark])) = some (inner ++ [mark]) := by
    simp [Text.dropStart?]
  have hend : Text.dropEnd? [mark] (inner ++ [mark]) = some inner := by
    simp [Text.dropEnd?, List.isSuffixOf_iff_suffix]
  have hnumber {t : Text} (hc : c ∈ t) : Text.readNat? 10 t = none := by
    refine if_neg fun h => ?_
    have hten := List.all_eq_true.1 h.2 c hc
    rw [Text.isDigitOf, Bool.and_eq_true, decide_eq_true_eq] at hten
    exact Nat.not_lt.2 (Text.ten_le_digitValue hdigit) hten.2
  have hread : Literal.readIndex? inner = none := by
    rw [Literal.readIndex?, hnumber]
    · rfl
    · cases hdrop : Text.dropStart? ['+'] inner with
      | none => exact hmem
      | some rest =>
        rw [Text.dropStart?_eq_some hdrop] at hmem
        exact (List.mem_cons.1 hmem).resolve_left hplus
  rw [lookup?, Literal.placeholderId?, hstart, Option.bind_some, hend, Option.bind_some, hread]
  rfl

/-- A placeholder that is not closed stands for nothing. -/
theorem lookup?_open (h : mark ∉ inner) : ls.lookup? (mark :: inner) = none := by
  have hstart : Text.dropStart? [mark] (mark :: inner) = some inner := by
    simp [Text.dropStart?]
  have hend : Text.dropEnd? [mark] inner = none := by
    refine if_neg fun hsuffix => h ?_
    exact (List.isSuffixOf_iff_suffix.1 hsuffix).subset List.mem_cons_self
  rw [lookup?, Literal.placeholderId?, hstart, Option.bind_some, hend]
  rfl

theorem restore_closed (h : mark ∉ inner) (t : Text) :
    ls.restore (mark :: (inner ++ mark :: t)) =
      ls.restoreSegment (.placeholder (mark :: (inner ++ [mark]))) ++ ls.restore t := by
  have hsegments := Text.segments_placeholder h t
  rw [restore, show mark :: (inner ++ mark :: t) = mark :: inner ++ [mark] ++ t by simp, hsegments]
  rfl

theorem restore_open (h : mark ∉ inner) : ls.restore (mark :: inner) = mark :: inner := by
  rw [restore, Text.segments, if_pos rfl, Text.throughMark_of_not_mem h,
    Text.afterMark_of_not_mem h, List.flatMap_cons, restoreSegment, lookup?_open h, Text.segments]
  simp

end Literals

/-! ### Numbers after a dollar sign -/

/-- A word after a dollar sign, with the sign, made short. -/
def Output.shortenDollar (w : Text) : Text :=
  ((Output.hexValue? w).map Output.numeral).getD ('$' :: w)

theorem Output.mem_shortenDollar {w : Text} (hw : ∀ c ∈ w, isWordChar c = true) {c : Char}
    (h : c ∈ shortenDollar w) :
    isWordChar c = true ∨ 0x21 ≤ c.toNat := by
  unfold shortenDollar at h
  cases hvalue : hexValue? w with
  | some n =>
    rw [hvalue] at h
    exact .inr (visible_of_mem_numeral h)
  | none =>
    rw [hvalue] at h
    rcases List.mem_cons.1 h with rfl | h
    · exact .inr (by decide)
    · exact .inl (hw c h)

theorem Output.shortenDollar_ne_nil (w : Text) : shortenDollar w ≠ [] := by
  unfold shortenDollar
  cases hexValue? w with
  | some n => exact numeral_ne_nil n
  | none => exact List.cons_ne_nil _ _

theorem Output.shortenFrom_dollarWord {before : Option Char} {w t : Text} (hne : w ≠ [])
    (hw : ∀ c ∈ w, isWordChar c = true)
    (ht : StartsNoWord t) :
    shortenFrom before ('$' :: (w ++ t)) = shortenDollar w ++ shortenNumerals t := by
  rw [shortenFrom_dollar hne hw ht, shortenFrom_getLast? hne hw, shortenDollar]
  cases hexValue? w <;> rfl

/-! ### Names for words -/

/-- Replacements of words by names of at most four characters. The words are no numbers. -/
structure NamesWords (g : Text → Option Text) : Prop where
  word : ∀ w r, g w = some r → isIdent w = true
  number : ∀ w r, g w = some r → Output.hexValue? w = none
  name : ∀ w r, g w = some r → isIdent r = true
  short : ∀ w r, g w = some r → r.length ≤ 4

namespace NamesWords

variable {g : Text → Option Text} {w r : Text} (hg : NamesWords g)

include hg

theorem smooth : Text.Smooth g := fun w r h =>
  ⟨Text.ne_nil_of_isIdent (hg.name w r h), fun c hc => Text.isSmooth_of_isWordChar
    (Text.isWordChar_of_isIdent (hg.name w r h) c hc)⟩

/-- After a dollar sign a name takes a byte more than its own, be it a number or none. -/
theorem byteLength_shortenDollar (h : g w = some r) :
    byteLength (Output.shortenDollar r) = byteLength r + 1 := by
  have hbytes := Text.byteLength_of_isWordChar (Text.isWordChar_of_isIdent (hg.name w r h))
  unfold Output.shortenDollar
  cases hvalue : Output.hexValue? r with
  | some n =>
    rw [Option.map_some, Option.getD_some,
      Output.byteLength_numeral_of_isIdent (hg.name w r h) (hg.short w r h) hvalue, hbytes]
  | none =>
    rw [Option.map_none, Option.getD_none, Text.byteLength_cons, Nat.add_comm]
    rfl

theorem shortenDollar_word (h : g w = some r) : Output.shortenDollar w = '$' :: w := by
  rw [Output.shortenDollar, hg.number w r h]
  rfl

end NamesWords

namespace Recast

variable {g : Text → Option Text} {s t : Text} (hg : NamesWords g)

include hg

/-- The two texts are one, or both have a letter. -/
theorem eq_or_letter (h : Recast g s t) :
    t = s ∨ (∃ c ∈ s, isWordChar c = true ∧ c.isDigit = false) ∧ ∃ c ∈ t, isWordChar c = true ∧
    c.isDigit = false := by
  have hletter {w : Text} (hw : isIdent w = true) : ∃ c ∈ w, isWordChar c = true ∧
      c.isDigit = false := by
    obtain ⟨c, rest, rfl⟩ := List.exists_cons_of_ne_nil (Text.ne_nil_of_isIdent hw)
    exact ⟨c, List.mem_cons_self, Text.isWordChar_of_isIdent hw c List.mem_cons_self,
      Text.not_isDigit_of_isIdent hw c rfl⟩
  induction h with
  | nil => exact .inl rfl
  | char _ _ ih =>
    rcases ih with rfl | ⟨⟨c, hc, hcs⟩, d, hd, hds⟩
    · exact .inl rfl
    · exact .inr ⟨⟨c, List.mem_cons_of_mem _ hc, hcs⟩, d, List.mem_cons_of_mem _ hd, hds⟩
  | @word w r s t _ _ _ hr _ ih =>
    rcases hr with rfl | hr
    · rcases ih with rfl | ⟨⟨c, hc, hcs⟩, d, hd, hds⟩
      · exact .inl rfl
      · exact .inr ⟨⟨c, List.mem_append_right _ hc, hcs⟩, d, List.mem_append_right _ hd, hds⟩
    · obtain ⟨c, hc, hcs⟩ := hletter (hg.word w r hr)
      obtain ⟨d, hd, hds⟩ := hletter (hg.name w r hr)
      exact .inr ⟨⟨c, List.mem_append_left _ hc, hcs⟩, d, List.mem_append_left _ hd, hds⟩

/-- The same empty lines are dropped in both texts. -/
theorem byteLength_dropEmptyLines (h : Recast g s t) (fresh : Bool) :
    byteLength (dropEmptyLines fresh t) + byteLength s =
      byteLength (dropEmptyLines fresh s) + byteLength t := by
  have hrun {w : Text} (hw : ∀ c ∈ w, isWordChar c = true) : '\n' ∉ w :=
    fun hmem => absurd (hw _ hmem) (by decide)
  induction h generalizing fresh with
  | nil => rfl
  | @char c s t _ _ ih =>
    have htrue := ih true
    have hfalse := ih false
    rw [dropEmptyLines, dropEmptyLines]
    split
    · split
      · simp only [Text.byteLength_cons]
        omega
      · simp only [Text.byteLength_cons]
        omega
    · simp only [Text.byteLength_cons]
      omega
  | @word w r s t hne hw _ hr _ ih =>
    obtain ⟨hne', hword⟩ : r ≠ [] ∧ ∀ c ∈ r, isWordChar c = true := by
      rcases hr with rfl | hr
      · exact ⟨hne, hw⟩
      · exact ⟨Text.ne_nil_of_isIdent (hg.name w r hr), Text.isWordChar_of_isIdent (hg.name w r hr)⟩
    have hrest := ih false
    rw [Sealed.dropEmptyLines_append hne (hrun hw), Sealed.dropEmptyLines_append hne' (hrun hword)]
    simp only [Text.byteLength_append]
    omega

end Recast

/-! ### Texts as they are written -/

/-- The length of a text without empty lines and with its literals put back; `fresh` says whether a
line is about to start. -/
def Literals.writtenLength (ls : Literals) (fresh : Bool) (t : Text) : Nat :=
  byteLength (ls.restore (dropEmptyLines fresh t))

section WrittenLength

variable {ls : Literals} {fresh : Bool} {u t inner : Text}

namespace Literals

theorem writtenLength_append (hne : u ≠ []) (hnewline : '\n' ∉ u) (hmark : mark ∉ u) :
    ls.writtenLength fresh (u ++ t) = byteLength u + ls.writtenLength false t := by
  rw [writtenLength, Sealed.dropEmptyLines_append hne hnewline,
    (Sealed.of_not_mem (n := 0) hmark).restore_append, restore_of_not_mem hmark,
    Text.byteLength_append, writtenLength]

/-- Words, numbers and other visible characters are written as they are. -/
theorem writtenLength_visible (hne : u ≠ []) (hu : ∀ c ∈ u, isWordChar c = true ∨ 0x21 ≤ c.toNat) :
    ls.writtenLength fresh (u ++ t) = byteLength u + ls.writtenLength false t := by
  refine writtenLength_append hne (fun hmem => ?_) fun hmem => ?_
  · exact absurd (hu _ hmem) (by decide)
  · exact absurd (hu _ hmem) (by decide)

theorem writtenLength_newline :
    ls.writtenLength fresh ('\n' :: t) = (if fresh then 0 else 1) + ls.writtenLength true t := by
  rw [writtenLength, dropEmptyLines, if_pos rfl]
  split
  · rw [Nat.zero_add, writtenLength]
  · rw [restore_cons (by decide), Text.byteLength_cons, writtenLength]
    rfl

theorem dropEmptyLines_append_mark (fresh : Bool) (u t : Text) :
    dropEmptyLines fresh (u ++ mark :: t) =
      dropEmptyLines fresh u ++ mark :: dropEmptyLines false t := by
  induction u generalizing fresh with
  | nil => rfl
  | cons c rest ih =>
    rw [List.cons_append, dropEmptyLines, dropEmptyLines]
    split
    · split
      · exact ih true
      · rw [ih true, List.cons_append]
    · rw [ih false, List.cons_append]

theorem mem_dropEmptyLines {c : Char} (hc : c ≠ '\n') : c ∈ dropEmptyLines fresh u ↔ c ∈ u := by
  induction u generalizing fresh with
  | nil => rfl
  | cons d rest ih =>
    rw [dropEmptyLines]
    split
    · rename_i hd
      split
      · rw [ih, List.mem_cons, or_iff_right (hd ▸ hc)]
      · rw [List.mem_cons, List.mem_cons, ih]
    · rw [List.mem_cons, List.mem_cons, ih]

theorem writtenLength_closed (hmark : mark ∉ inner) :
    ls.writtenLength fresh (mark :: (inner ++ mark :: t)) =
    byteLength (ls.restoreSegment (.placeholder (mark :: (dropEmptyLines false inner ++ [mark])))) +
      ls.writtenLength false t := by
  rw [writtenLength, dropEmptyLines, if_neg (by decide), dropEmptyLines_append_mark,
    restore_closed (mt (mem_dropEmptyLines (by decide)).1 hmark), Text.byteLength_append,
    writtenLength]

theorem writtenLength_open (hmark : mark ∉ inner) :
    ls.writtenLength fresh (mark :: inner) = byteLength (mark :: dropEmptyLines false inner) := by
  rw [writtenLength, dropEmptyLines, if_neg (by decide),
    restore_open (mt (mem_dropEmptyLines (by decide)).1 hmark)]

end Literals

variable {g : Text → Option Text} {s : Text} (hg : NamesWords g)

include hg

/-- A placeholder that is not the same in both texts stands for nothing in either. -/
theorem Recast.byteLength_restoreSegment {inner' : Text} (h : Recast g inner inner') :
    byteLength
        (ls.restoreSegment (.placeholder (mark :: (dropEmptyLines false inner' ++ [mark])))) +
        byteLength inner =
      byteLength
        (ls.restoreSegment (.placeholder (mark :: (dropEmptyLines false inner ++ [mark])))) +
        byteLength inner' := by
  have hnothing {v : Text} (hv : ∃ c ∈ v, isWordChar c = true ∧ c.isDigit = false) :
      ls.restoreSegment (.placeholder (mark :: (dropEmptyLines false v ++ [mark]))) =
        mark :: (dropEmptyLines false v ++ [mark]) := by
    obtain ⟨c, hc, hword, hdigit⟩ := hv
    have hnewline : c ≠ '\n' := by
      rintro rfl
      cases hword
    rw [Literals.restoreSegment,
      Literals.lookup?_of_mem ((Literals.mem_dropEmptyLines hnewline).2 hc) hword hdigit,
      Option.getD_none]
  rcases h.eq_or_letter hg with rfl | ⟨hs, ht⟩
  · rfl
  · have hlength := h.byteLength_dropEmptyLines hg false
    rw [hnothing hs, hnothing ht]
    simp only [Text.byteLength_cons, Text.byteLength_append]
    omega

open Output (shortenFrom shortenWord shortenNumerals hexValue? numeral)

/-- A text with names for words is written with as many bytes more as it has. -/
theorem Recast.writtenLength (h : Recast g s t) (before : Option Char) (fresh : Bool) :
    ls.writtenLength fresh (shortenFrom before t) + byteLength s =
      ls.writtenLength fresh (shortenFrom before s) + byteLength t := by
  induction s using Text.numeralwise generalizing t before fresh with
  | nil => rw [h.eq_nil]
  | placeholder rest ih =>
    obtain ⟨rest', rfl, hrest⟩ := h.char_inv (by decide)
    rw [Output.shortenFrom_mark, Output.shortenFrom_mark]
    by_cases hmem : mark ∈ rest
    · obtain ⟨inner, after, rfl, hmark⟩ := List.eq_append_cons_of_mem hmem
      obtain ⟨inner', after', rfl, hinner, hafter⟩ := hrest.of_append_cons (by decide)
      have hmark' : mark ∉ inner' := not_mem hg.smooth (by decide) hmark hinner
      have hsegment : byteLength (ls.restoreSegment _) + _ = byteLength (ls.restoreSegment _) + _ :=
        hinner.byteLength_restoreSegment hg
      rw [Text.afterMark_append hmark] at ih
      have hnext := ih hafter none false
      rw [Text.throughMark_append hmark, Text.afterMark_append hmark,
        Text.throughMark_append hmark', Text.afterMark_append hmark']
      simp only [List.cons_append, List.append_assoc, List.nil_append,
        Literals.writtenLength_closed hmark, Literals.writtenLength_closed hmark', shortenNumerals,
        shortenFrom] at hnext ⊢
      simp only [Text.byteLength_cons, Text.byteLength_append]
      omega
    · have hmem' : mark ∉ rest' := not_mem hg.smooth (by decide) hmem hrest
      have hlength := hrest.byteLength_dropEmptyLines hg false
      have hnil : shortenNumerals [] = [] := Output.shortenFrom_nil
      rw [Text.throughMark_of_not_mem hmem, Text.afterMark_of_not_mem hmem,
        Text.throughMark_of_not_mem hmem', Text.afterMark_of_not_mem hmem', hnil, List.append_nil,
        List.append_nil, Literals.writtenLength_open hmem, Literals.writtenLength_open hmem']
      simp only [Text.byteLength_cons]
      omega
  | word w s hne hw hs ih =>
    obtain ⟨r, t, rfl, hr, ht⟩ := h.word_inv hne hw hs
    have hstart := ht.startsNoWord hs
    have hnext := ih ht none false
    rcases hr with rfl | hr
    · have hvisible : ∀ c ∈ shortenWord before s.head? r, isWordChar c = true ∨ 0x21 ≤ c.toNat :=
        fun c hc => (Output.mem_shortenWord hc).imp_left (hw c)
      rw [Output.shortenFrom_word hne hw hstart, Output.shortenFrom_word hne hw hs, ht.head?_eq hs,
        Output.shortenFrom_getLast? hne hw, Output.shortenFrom_getLast? hne hw,
        Literals.writtenLength_visible (Output.shortenWord_ne_nil _ _ hne) hvisible,
        Literals.writtenLength_visible (Output.shortenWord_ne_nil _ _ hne) hvisible]
      simp only [Text.byteLength_append, shortenNumerals, shortenFrom] at hnext ⊢
      omega
    · have hident := hg.name w r hr
      have hword := Text.isWordChar_of_isIdent hident
      have hne' := Text.ne_nil_of_isIdent hident
      rw [Output.shortenFrom_ident hident hstart, Output.shortenFrom_ident (hg.word w r hr) hs,
        Output.shortenFrom_getLast? hne' hword, Output.shortenFrom_getLast? hne hw,
        Literals.writtenLength_visible hne' fun c hc => .inl (hword c hc),
        Literals.writtenLength_visible hne fun c hc => .inl (hw c hc)]
      simp only [Text.byteLength_append, shortenNumerals, shortenFrom] at hnext ⊢
      omega
  | dollar w s hne hw hs ih =>
    obtain ⟨t', rfl, h'⟩ := h.char_inv (by decide)
    obtain ⟨r, t, rfl, hr, ht⟩ := h'.word_inv hne hw hs
    have hstart := ht.startsNoWord hs
    have hnext := ih ht none false
    obtain ⟨hne', hword, hlength⟩ : r ≠ [] ∧ (∀ c ∈ r, isWordChar c = true) ∧
        byteLength (Output.shortenDollar r) + byteLength w =
          byteLength (Output.shortenDollar w) + byteLength r := by
      rcases hr with rfl | hr
      · exact ⟨hne, hw, rfl⟩
      · have hident := hg.name w r hr
        have hsign : '$'.utf8Size = 1 := rfl
        refine ⟨Text.ne_nil_of_isIdent hident, Text.isWordChar_of_isIdent hident, ?_⟩
        rw [hg.byteLength_shortenDollar hr, hg.shortenDollar_word hr, Text.byteLength_cons]
        omega
    rw [Output.shortenFrom_dollarWord hne' hword hstart, Output.shortenFrom_dollarWord hne hw hs,
      Literals.writtenLength_visible (Output.shortenDollar_ne_nil r) fun c hc =>
        Output.mem_shortenDollar hword hc,
      Literals.writtenLength_visible (Output.shortenDollar_ne_nil w) fun c hc =>
        Output.mem_shortenDollar hw hc]
    simp only [Text.byteLength_cons, Text.byteLength_append, shortenNumerals,
      shortenFrom] at hnext ⊢
    omega
  | other c s hc hnext ih =>
    obtain ⟨t, rfl, ht⟩ := h.char_inv (Text.not_isWordChar_of_isOtherChar hc)
    rw [Output.shortenFrom_other hc hnext,
      Output.shortenFrom_other hc (hnext.imp_right ht.startsNoWord)]
    by_cases hnewline : c = '\n'
    · have hrest := ih ht (some c) true
      subst hnewline
      rw [Literals.writtenLength_newline, Literals.writtenLength_newline, Text.byteLength_cons,
        Text.byteLength_cons]
      omega
    · have hrest := ih ht (some c) false
      have hone (u : Text) :
          ls.writtenLength fresh (c :: u) = byteLength [c] + ls.writtenLength false u :=
        Literals.writtenLength_append (u := [c]) (List.cons_ne_nil _ _)
          (by simpa using Ne.symm hnewline)
          (by simpa using Ne.symm (Text.ne_mark_of_isOtherChar hc))
      simp only [hone, Text.byteLength_cons, Text.byteLength_nil]
      omega

end WrittenLength
end ScriptMinifier
