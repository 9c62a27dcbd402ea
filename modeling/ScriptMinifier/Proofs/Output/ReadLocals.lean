import ScriptMinifier.Proofs.Output.WrittenPrograms
import ScriptMinifier.Proofs.Syntax.LocalLines

/-! Locals that are read again.

A number with a dollar sign may lose the sign when it is written, and then joins the word before it.
Where no such number stands before the equals sign of a line that opens with `local`, the line is
read with the same left side, if it is read as the declaration of a local at all. So a function that
is read binds no name but those of the function that was written
(`FunctionRead.scopedNames_subset`). -/
namespace ScriptMinifier

open Layout (squeezeBlock squeezeLine)
open Literal (isFree placeholder placeholder_append)
open Syntax (Declaration Function OpensLocal localName?)
open Text (ended fields isBlank isHorizontal isIdent isOtherChar isWordChar mark StartsNoWord
  trimStart words)

variable {ls ls' : Literals} {c : Char} {n : Nat} {s t w x line : Text}

/-! ### From what is read to what was written -/

/-- A number is read as something that starts with a digit or with a placeholder. -/
theorem NumberRead.isFree_head? {long : Prop} {v : Text} (h : NumberRead ls long v) (t : Text) :
    ∃ c ∈ (v ++ t).head?, isFree c = false := by
  cases h with
  | digits hne hv =>
    obtain ⟨c, rest, rfl⟩ := List.exists_cons_of_ne_nil hne
    refine ⟨c, rfl, ?_⟩
    rw [isFree, hv c List.mem_cons_self, Bool.not_true, Bool.and_false]
  | @literal k raw =>
    rw [placeholder_append]
    exact ⟨mark, rfl, by decide⟩

namespace Reread

/-- A letter or a sign that is read was written, alone or with the rest of its word. -/
theorem exists_front (hc : isFree c = true) (hdollar : c ≠ '$') (h : Reread ls ls' t (c :: x)) :
    (isOtherChar c = true ∧ ∃ t', t = c :: t' ∧ Reread ls ls' t' x) ∨
      ∃ w t' x', w ≠ [] ∧ (∀ d ∈ w, isWordChar d = true) ∧ StartsNoWord t' ∧ t = w ++ t' ∧
        c :: x = w ++ x' ∧ Reread ls ls' t' x' := by
  have hnumber : ∀ {long : Prop} {v u : Text}, NumberRead ls' long v → c :: x ≠ v ++ u := by
    intro long v u hv heq
    obtain ⟨d, hd, hfree⟩ := hv.isFree_head? u
    rw [← heq] at hd
    rw [← Option.mem_some_iff.1 hd, hc] at hfree
    cases hfree
  generalize hy : c :: x = y at h
  cases h with
  | nil => cases hy
  | literal =>
    rw [placeholder_append, List.cons.injEq] at hy
    exact absurd hy.1 (Literal.ne_mark_of_isFree hc)
  | @word w v t x' hne hw ht hv rest =>
    rcases hv with rfl | ⟨-, hv⟩
    · exact .inr ⟨v, t, x', hne, hw, ht, rfl, rfl, rest⟩
    · exact absurd hy (hnumber hv)
  | dollar _ _ _ hv =>
    rcases hv with rfl | hv
    · exact absurd (List.cons.inj hy).1 hdollar
    · exact absurd hy (hnumber hv)
  | other ho _ rest =>
    obtain ⟨rfl, rfl⟩ := List.cons.inj hy
    exact .inl ⟨ho, _, rfl, rest⟩

/-- A blank that is read was written. -/
theorem of_blank (hc : isBlank c = true) (h : Reread ls ls' t (c :: x)) :
    ∃ t', t = c :: t' ∧ Reread ls ls' t' x := by
  have hdollar : c ≠ '$' := by
    rintro rfl
    exact absurd hc (by decide)
  rcases h.exists_front (Literal.isFree_of_isBlank hc) hdollar with
    ⟨-, t', rfl, hrest⟩ | ⟨w, t', x', hne, hw, -, -, heq, -⟩
  · exact ⟨t', rfl, hrest⟩
  · obtain ⟨d, rest, rfl⟩ := List.exists_cons_of_ne_nil hne
    have hword := hw d List.mem_cons_self
    rw [← (List.cons.inj heq).1] at hword
    rw [Layout.not_isBlank_of_isWordChar hword] at hc
    cases hc

/-- What is read where no word was written starts with no letter. -/
theorem startsNoLetter (ht : StartsNoWord t) (h : Reread ls ls' t x) :
    ∀ c ∈ x.head?, isWordChar c = true → c.isDigit = true := by
  intro c hc hword
  by_contra hletter
  obtain ⟨rest, rfl⟩ := List.head?_eq_some_iff.1 hc
  have hmark : c ≠ mark := by
    rintro rfl
    exact absurd hword (by decide)
  have hfree : isFree c = true := by
    rw [isFree, bne_iff_ne.2 hmark, Bool.eq_false_iff.2 hletter]
    rfl
  have hdollar : c ≠ '$' := by
    rintro rfl
    exact absurd hword (by decide)
  rcases h.exists_front hfree hdollar with ⟨ho, -⟩ | ⟨w, t', x', hne, hw, -, rfl, -, -⟩
  · rw [Text.not_isWordChar_of_isOtherChar ho] at hword
    cases hword
  · obtain ⟨d, more, rfl⟩ := List.exists_cons_of_ne_nil hne
    have hd := hw d List.mem_cons_self
    rw [ht d _ rfl] at hd
    cases hd

/-- A word without digits that is read was written. -/
theorem of_letters (hne : w ≠ []) (hw : ∀ c ∈ w, isWordChar c = true ∧ c.isDigit = false)
    (hx : StartsNoWord x) (h : Reread ls ls' t (w ++ x)) :
    ∃ t', t = w ++ t' ∧ Reread ls ls' t' x := by
  obtain ⟨c, rest, rfl⟩ := List.exists_cons_of_ne_nil hne
  have hletter := hw c List.mem_cons_self
  have hmark : c ≠ mark := by
    rintro rfl
    exact absurd hletter.1 (by decide)
  have hfree : isFree c = true := by
    rw [isFree, bne_iff_ne.2 hmark, hletter.2]
    rfl
  have hdollar : c ≠ '$' := by
    rintro rfl
    exact absurd hletter.1 (by decide)
  rcases h.exists_front hfree hdollar with ⟨ho, -⟩ | ⟨v, t', x', -, hv, ht, rfl, heq, hrest⟩
  · rw [Text.not_isWordChar_of_isOtherChar ho] at hletter
    cases hletter.1
  · -- a digit after the written word would be part of the word that is read
    have hnext : StartsNoWord x' := by
      rintro d more rfl
      rw [Bool.eq_false_iff]
      intro hword
      have hdigit := hrest.startsNoLetter ht d rfl hword
      have hruns : (c :: rest ++ x).takeWhile isWordChar = (v ++ d :: more).takeWhile isWordChar :=
        congrArg _ heq
      have hend : x.takeWhile isWordChar = [] := by
        cases x with
        | nil => rfl
        | cons e more => exact List.takeWhile_cons_of_neg (by simp [hx e more rfl])
      have hmem : d ∈ c :: rest := by
        rw [List.takeWhile_append_of_pos fun d hd => (hw d hd).1, hend, List.append_nil,
          List.takeWhile_append_of_pos hv, List.takeWhile_cons_of_pos hword] at hruns
        rw [hruns]
        exact List.mem_append_right _ List.mem_cons_self
      rw [(hw d hmem).2] at hdigit
      cases hdigit
    obtain ⟨rfl, rfl⟩ := Text.run_inj (fun d hd => (hw d hd).1) hx hv hnext heq
    exact ⟨t', rfl, hrest⟩

/-- A line that is read as one that opens with `local` was one. -/
theorem opensLocal (h : Reread ls ls' line x) (hx : OpensLocal x) : OpensLocal line := by
  obtain ⟨rest, hrest⟩ := hx
  induction x generalizing line with
  | nil => cases hrest
  | cons c x ih =>
    by_cases hblank : isBlank c = true
    · obtain ⟨t, rfl, hread⟩ := h.of_blank hblank
      rw [trimStart, List.dropWhile_cons_of_pos hblank] at hrest
      obtain ⟨rest', hrest'⟩ := ih hread hrest
      exact ⟨rest', (List.dropWhile_cons_of_pos hblank).trans hrest'⟩
    · rw [trimStart, List.dropWhile_cons_of_neg hblank] at hrest
      have hcut : "local ".toList ++ rest = "local".toList ++ ' ' :: rest := rfl
      rw [hrest, hcut] at h
      obtain ⟨t, rfl, hread⟩ := h.of_letters (by decide) (by decide)
        (Text.startsNoWord_of_isOtherChar (by decide) rest)
      obtain ⟨t', rfl, -⟩ := hread.of_blank (by decide)
      exact ⟨t', List.dropWhile_cons_of_neg (by decide)⟩

/-- What is read has the left side of the line as it is read. -/
theorem sides (hline : Sealed n line) (h : Reread ls ls' line x) :
    Reread ls ls' (Declaration.sides line).1 (Declaration.sides x).1 := by
  cases hcut : Text.cutAt? '=' line with
  | none =>
    have hnone := h.not_mem (by decide) (Text.cutAt?_eq_none.1 hcut)
    rw [Declaration.sides, hcut, Declaration.sides, Text.cutAt?_eq_none.2 hnone]
    exact h
  | some cut =>
    obtain ⟨left, right⟩ := cut
    have hleft := Text.not_mem_of_cutAt? hcut
    rw [Text.cutAt?_eq_some hcut] at h hline ⊢
    obtain ⟨left', x', rfl, hread, hrest⟩ := h.of_append (hline.of_append_cons (by decide)).1
      fun _ _ _ => Text.startsNoWord_of_isOtherChar (by decide) right
    obtain ⟨right', rfl, -⟩ := hrest.of_other (by decide) (.inl (by decide))
    rw [Declaration.sides, Text.cutAt?_append hleft, Declaration.sides,
      Text.cutAt?_append (hread.not_mem (by decide) hleft)]
    exact hread

/-- What is read without a number or a literal was written so, if no dollar sign was. -/
theorem eq_of_names (h : Reread ls ls' t x) (hdollar : '$' ∉ t) (hmark : mark ∉ x)
    (hnames : ∀ w ∈ words x, ∀ c ∈ w.head?, c.isDigit = false) : x = t := by
  induction h with
  | nil => rfl
  | literal => exact absurd (by simp [placeholder]) hmark
  | @word w v t x hne hw ht hv rest ih =>
    rw [List.mem_append, not_or] at hdollar hmark
    have hx : StartsNoWord x :=
      rest.startsNoWord ht fun hhead => hdollar.2 (List.mem_of_head? hhead)
    rcases hv with rfl | ⟨-, hv⟩
    · rw [Text.words_word hne hw hx, List.forall_mem_cons] at hnames
      rw [ih hdollar.2 hmark.2 hnames.2]
    · cases hv with
      | digits hne' hv =>
        have hword : ∀ c ∈ v, isWordChar c = true :=
          fun c hc => Constant.isWordChar_of_isDigit (hv c hc)
        rw [Text.words_word hne' hword hx, List.forall_mem_cons] at hnames
        obtain ⟨c, rest, rfl⟩ := List.exists_cons_of_ne_nil hne'
        have hdigit := hv c List.mem_cons_self
        rw [hnames.1 c rfl] at hdigit
        cases hdigit
      | literal => exact absurd (by simp [placeholder]) hmark.1
  | dollar => exact absurd List.mem_cons_self hdollar
  | other hc _ _ ih =>
    rw [List.mem_cons, not_or] at hdollar hmark
    rw [Text.words_other hc] at hnames
    rw [ih hdollar.2 hmark.2 hnames]

/-- A local that is read on a line was declared there, if the line has no number with a dollar
sign before its equals sign. -/
theorem localName? (hline : Sealed n line)
    (hplain : OpensLocal line → '$' ∉ (Declaration.sides line).1)
    (hblanks : ∀ c ∈ line, isHorizontal c = true → c = ' ') (h : Reread ls ls' line x) {name : Text}
    (hname : Syntax.localName? (squeezeLine x) = some name) :
    Syntax.localName? line = some name := by
  have hblanksRead : ∀ c ∈ x, isHorizontal c = true → c = ' ' := by
    intro c hc hhorizontal
    by_contra hspace
    have hfree := Literal.isFree_of_isBlank (Text.isBlank_of_isHorizontal c hhorizontal)
    exact h.not_mem hfree (fun hmem => hspace (hblanks c hmem hhorizontal)) hc
  obtain ⟨hopens, type, array, htyped, htype, hident⟩ := localName?_eq_some_iff.1 hname
  have hopensLine := h.opensLocal (hopens.of_squeezeLine hblanksRead)
  have hsides := h.sides hline
  -- the left side that is read has the words and the blanks of a declaration
  have hsqueezed : ∀ c ∈ squeezeLine (Declaration.sides x).1, isWordChar c = true ∨
      isBlank c = true := by
    rw [← sides_squeezeLine]
    exact Naming.sides_of_localName? hname
  have hchars : ∀ c ∈ (Declaration.sides x).1, isWordChar c = true ∨ isBlank c = true := by
    intro c hc
    by_cases hblank : isBlank c = true
    · exact .inr hblank
    · obtain ⟨hvisible, hnewline⟩ := Layout.visible_of_not_isBlank (Bool.eq_false_iff.2 hblank)
      have hmem : c ∈ (squeezeLine (Declaration.sides x).1).filter Layout.isContent := by
        rw [squeezeLine, Layout.filter_squeezeFrom, List.mem_filter]
        exact ⟨hc, Layout.isContent_eq_true.2 ⟨hvisible, hnewline⟩⟩
      exact hsqueezed c (List.mem_filter.1 hmem).1
  have hfields : fields (Declaration.sides x).1 = fields (Declaration.sides (squeezeLine x)).1 := by
    have hwords : words (squeezeLine (Declaration.sides x).1) = words (Declaration.sides x).1 :=
      Layout.wordsFrom_squeezeFrom false none false _
    rw [sides_squeezeLine, ← Text.words_eq_fields hchars, ← Text.words_eq_fields hsqueezed, hwords]
  have hidents : ∀ w ∈ fields (Declaration.sides x).1, isIdent w = true := by
    obtain ⟨rest, hrest⟩ := hopens
    have hopening := fields_sides_of_opens hrest
    rw [hopening, List.drop_one, List.tail_cons] at htyped
    rw [hfields, hopening, List.forall_mem_cons]
    exact ⟨by decide, isIdent_fields_of_typedName? htyped htype hident⟩
  have hmark : mark ∉ (Declaration.sides x).1 := fun hmem => absurd (hchars _ hmem) (by decide)
  have hsame := hsides.eq_of_names (hplain hopensLine) hmark fun w hw => by
    rw [Text.words_eq_fields hchars] at hw
    exact Text.not_isDigit_of_isIdent (hidents w hw)
  rw [← hfields, hsame] at htyped
  exact localName?_eq_some_iff.2 ⟨hopensLine, type, array, htyped, htype, hident⟩

end Reread

/-! ### Functions -/

/-- Blanks at the end of a line do not change which local it declares. -/
theorem localName?_append_blanks (ht : ∀ c ∈ t, isBlank c = true) (s : Text) :
    Syntax.localName? (s ++ t) = Syntax.localName? s := by
  have hnone : ∀ c ∈ ([] : Text), isBlank c = true := nofun
  have htrim : Text.trim (s ++ t) = Text.trim s := Text.trim_append hnone ht s
  rw [Syntax.localName?, Syntax.localName?, htrim]

/-- The lines of a text that is trimmed at its end declare no other locals. -/
theorem exists_mem_pieces_of_trimEnd (h : line ∈ Text.pieces '\n' (Text.trimEnd t)) :
    ∃ line' ∈ Text.pieces '\n' t, Syntax.localName? line' = Syntax.localName? line := by
  obtain ⟨blanks, heq, hblanks⟩ := Text.exists_trimEnd t
  obtain ⟨init, last, first, rest, hs, hb, ht⟩ := Text.pieces_append '\n' (Text.trimEnd t) blanks
  rw [← heq] at ht
  rw [hs] at h
  rw [ht]
  rcases List.mem_append.1 h with hmem | hmem
  · exact ⟨line, List.mem_append_left _ hmem, rfl⟩
  · obtain rfl := List.mem_singleton.1 hmem
    have hfirst : ∀ c ∈ first, isBlank c = true := fun c hc =>
      hblanks c (Text.mem_of_mem_pieces (hb ▸ List.mem_cons_self) hc)
    exact ⟨_, List.mem_append_right _ List.mem_cons_self, localName?_append_blanks hfirst line⟩

namespace FunctionRead

variable {f f' : Function}

/-- A local of a function that is read is a local of the function that was written. -/
theorem localNames_subset (hbody : Sealed ls.size f.body) (hplain : f.PlainLocals)
    (hblanks : ∀ c ∈ f.body, isHorizontal c = true → c = ' ') (h : FunctionRead ls ls' f f') :
    f'.localNames ⊆ f.localNames := by
  obtain ⟨lines, hlines, rfl⟩ := h
  intro name hname
  rw [localNames_eq_filterMap, List.mem_filterMap] at hname ⊢
  obtain ⟨trimmed, htrimmed, hname⟩ := hname
  obtain ⟨squeezed, hsqueezed, heq⟩ := exists_mem_pieces_of_trimEnd htrimmed
  rw [← heq] at hname
  have hnewline : ∀ l ∈ lines, '\n' ∉ l := by
    intro l hl
    obtain ⟨piece, hpiece, hread⟩ := exists_of_mem_right hlines hl
    exact hread.not_mem (by decide) (Text.not_mem_of_mem_pieces (List.mem_filter.1 hpiece).1)
  have hmem : squeezed ∈ (lines.map squeezeLine).filter (· ≠ []) := by
    rw [← Layout.squeezedLines_ended hnewline]
    by_cases hnone : Layout.squeezedLines (ended lines) = []
    · rw [squeezeBlock, hnone] at hsqueezed
      obtain rfl : squeezed = [] := List.mem_singleton.1 hsqueezed
      cases hname
    · rwa [squeezeBlock,
        Text.pieces_joined hnone fun l hl => Layout.newline_not_mem_squeezedLines hl]
        at hsqueezed
  obtain ⟨x, hx, rfl⟩ := List.mem_map.1 (List.mem_filter.1 hmem).1
  obtain ⟨piece, hpiece, hread⟩ := exists_of_mem_right hlines hx
  have hpieces := (List.mem_filter.1 hpiece).1
  exact ⟨piece, hpieces, hread.localName? (hbody.pieces (by decide) piece hpieces)
    (hplain piece hpieces)
    (fun c hc => hblanks c (Text.mem_of_mem_pieces hpieces hc)) hname⟩

/-- A function that is read binds no further name, if no number with a dollar sign stands where
it declares its locals. -/
theorem scopedNames_subset (hbody : Sealed ls.size f.body) (hplain : f.PlainLocals)
    (hblanks : ∀ c ∈ f.body, isHorizontal c = true → c = ' ') (h : FunctionRead ls ls' f f') :
    f'.scopedNames ⊆ f.scopedNames := by
  have hparams : f'.paramNames = f.paramNames := by
    obtain ⟨_, -, rfl⟩ := h
    rfl
  intro name hname
  rw [Function.scopedNames, List.mem_append] at hname ⊢
  rw [hparams] at hname
  exact hname.imp_right fun hmem => h.localNames_subset hbody hplain hblanks hmem

end FunctionRead
end ScriptMinifier
