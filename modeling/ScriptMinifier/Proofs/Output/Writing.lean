import ScriptMinifier.Proofs.Literal.Wordwise
import ScriptMinifier.Proofs.Output.Items
import ScriptMinifier.Proofs.Output.Shortening
import ScriptMinifier.Proofs.Usage.LiteralCall

/-! Where a line stands in the text of a program.

Numerals are made short word by word, with an eye on the point and the dollar sign beside
them, so a text that is cut at another character is made short part by part
(`shortenNumerals_append_cons`). Empty lines are dropped between the lines, and literals are
put back one by one. So every line of a program that is not empty stands in its text
(`exists_emit_line`). -/
namespace ScriptMinifier

open Literal (placeholder indexLimit)
open Text (mark Segment isWordChar isOtherChar isIdent StartsNoWord segments ended)
open Layout (collapseNewlines dropEmptyLines)

/-- Induction over what shortening goes over in a sealed text. -/
theorem Sealed.numeralwise {n : Nat} {motive : Text → Prop} (nil : motive [])
    (literal : ∀ k t, k < n → Sealed n t → motive t → motive (placeholder k ++ t))
    (word : ∀ w t, w ≠ [] → (∀ c ∈ w, isWordChar c = true) → StartsNoWord t → Sealed n t →
      motive t → motive (w ++ t))
    (dollar : ∀ w t, w ≠ [] → (∀ c ∈ w, isWordChar c = true) → StartsNoWord t → Sealed n t →
      motive t →
      motive ('$' :: (w ++ t)))
    (other : ∀ c t, isOtherChar c = true → c ≠ '$' ∨ StartsNoWord t → Sealed n t → motive t →
      motive (c :: t)) {t : Text}
    (h : Sealed n t) : motive t := by
  induction t using Text.numeralwise with
  | nil => exact nil
  | placeholder rest ih =>
    obtain ⟨k, rest', hk, rfl, hrest⟩ := h.of_mark
    rw [Sealed.afterMark_ofNat] at ih
    rw [← Literal.placeholder_append]
    exact literal k rest' hk hrest (ih hrest)
  | word w t hne hw ht ih => exact word w t hne hw ht (h.of_word hw ht) (ih (h.of_word hw ht))
  | dollar w t hne hw ht ih =>
    have hrest := (h.tail (by decide)).of_word hw ht
    exact dollar w t hne hw ht hrest (ih hrest)
  | other c t hc hnext ih =>
    have hrest := h.tail (Text.ne_mark_of_isOtherChar hc)
    exact other c t hc hnext hrest (ih hrest)

namespace Output

/-! ### Numerals -/

/-- A text that is made short by itself, whatever stands before it: `r` is what becomes of it. -/
structure Apart (t r : Text) : Prop where
  alone : ∀ before, shortenFrom before t = r
  dollar : ∀ before, shortenFrom before ('$' :: t) = '$' :: r

/-- A text that ends the word before it, and is no part of a number. -/
structure Ends (t : Text) : Prop where
  startsNoWord : StartsNoWord t
  point : ∀ before w, shortenWord before t.head? w = shortenWord before none w

/-- A word after which nothing is left, or no word, ends where it did when more follows. -/
theorem startsNoWord_append_of_last {w s t : Text} (hne : w ≠ [])
    (hw : ∀ c ∈ w, isWordChar c = true) (hs : StartsNoWord s)
    (hlast : ∀ c ∈ (w ++ s).getLast?, isWordChar c = true → Ends t) :
    StartsNoWord (s ++ t) ∧
      ∀ before, shortenWord before (s ++ t).head? w = shortenWord before s.head? w := by
  cases s with
  | nil =>
    have hends :=
      hlast (w.getLast hne) (by rw [List.append_nil]; exact List.getLast?_eq_some_getLast hne)
      (hw _ (List.getLast_mem hne))
    exact ⟨hends.startsNoWord, fun before => hends.point before w⟩
  | cons d rest => exact ⟨hs.append (List.cons_ne_nil d rest) t, fun before => rfl⟩

/-- A text is made short part by part, when the second part is made short by itself. -/
theorem shortenFrom_append {n : Nat} {s t r : Text} (hs : Sealed n s) (ht : Apart t r)
    (hlast : ∀ c ∈ s.getLast?, isWordChar c = true → Ends t) (before : Option Char) :
    shortenFrom before (s ++ t) = shortenFrom before s ++ r := by
  refine Sealed.numeralwise (motive := fun s => (∀ c ∈ s.getLast?, isWordChar c = true → Ends t) →
    ∀ before, shortenFrom before (s ++ t) = shortenFrom before s ++ r) ?nil ?literal ?word ?dollar
      ?other hs hlast before
  case nil =>
    intro _ before
    rw [List.nil_append, ht.alone, shortenFrom_nil, List.nil_append]
  case literal =>
    intro k s _ _ ih hlast before
    have hrest := ih (Text.forall_getLast?_of_append hlast)
    rw [List.append_assoc, shortenFrom_placeholder, shortenFrom_placeholder, hrest,
      List.append_assoc]
  case word =>
    intro w s hne hw hnext _ ih hlast before
    have hrest := ih (Text.forall_getLast?_of_append hlast)
    obtain ⟨hstart, hends⟩ := startsNoWord_append_of_last hne hw hnext hlast
    rw [List.append_assoc, shortenFrom_word hne hw hstart, shortenFrom_word hne hw hnext, hrest,
      hends, List.append_assoc]
  case dollar =>
    intro w s hne hw hnext _ ih hlast before
    rw [List.getLast?_cons_of_ne_nil (List.append_ne_nil_of_left_ne_nil hne s)] at hlast
    have hrest := ih (Text.forall_getLast?_of_append hlast)
    obtain ⟨hstart, -⟩ := startsNoWord_append_of_last hne hw hnext hlast
    rw [List.cons_append, List.append_assoc, shortenFrom_dollar hne hw hstart,
      shortenFrom_dollar hne hw hnext, hrest, List.append_assoc]
  case other =>
    intro c s hc hnext _ ih hlast before
    have hrest := ih (Text.forall_getLast?_of_append (s := [c]) hlast)
    rw [List.cons_append, shortenFrom_other (t := s) hc hnext]
    by_cases halone : c = '$' ∧ s = []
    · -- the dollar sign stands before `t`
      obtain ⟨rfl, rfl⟩ := halone
      rw [List.nil_append, ht.dollar, shortenFrom_nil]
      rfl
    · rw [shortenFrom_other hc, hrest]
      · rfl
      · rcases not_and_or.1 halone with hplain | hne
        · exact .inl hplain
        · exact hnext.imp_right fun hstart => hstart.append hne t

theorem apart_cons {c : Char} (hc : isOtherChar c = true) (hpoint : c ≠ '.') (hdollar : c ≠ '$')
    (t : Text) :
    Apart (c :: t) (c :: shortenNumerals t) := by
  have halone : ∀ before, shortenFrom before (c :: t) = c :: shortenNumerals t := by
    intro before
    rw [shortenFrom_other hc (.inl hdollar), shortenFrom_some hpoint]
  refine ⟨halone, fun before => ?_⟩
  rw [shortenFrom_other (by decide) (.inr (Text.startsNoWord_of_isOtherChar hc t)), halone]

theorem shortenNumerals_append_cons {n : Nat} {s : Text} (hs : Sealed n s) {c : Char}
    (hc : isOtherChar c = true) (hpoint : c ≠ '.') (hdollar : c ≠ '$') (t : Text) :
    shortenNumerals (s ++ c :: t) = shortenNumerals s ++ c :: shortenNumerals t := by
  have hends : Ends (c :: t) :=
    ⟨Text.startsNoWord_of_isOtherChar hc t, fun _ w => shortenWord_some hpoint w⟩
  exact shortenFrom_append hs (apart_cons hc hpoint hdollar t) (fun _ _ _ => hends) none

/-- Numerals are made short line by line. -/
theorem shortenNumerals_ended {n : Nat} {ls : List Text} (h : ∀ l ∈ ls, Sealed n l) :
    shortenNumerals (ended ls) = ended (ls.map shortenNumerals) := by
  induction ls with
  | nil => exact shortenFrom_nil
  | cons l rest ih =>
    rw [List.forall_mem_cons] at h
    rw [List.map_cons, Text.ended_cons, Text.ended_cons, ← ih h.2]
    exact shortenNumerals_append_cons h.1 (by decide) (by decide) (by decide) _

theorem mem_shortenSegments {before : Option Char} {gs : List Segment} {c : Char}
    (h : c ∈ shortenSegments before gs) :
    c ∈ gs.flatMap Segment.text ∨ 0x21 ≤ c.toNat := by
  fun_induction shortenSegments before gs with
  | case1 => cases h
  | case2 before t w rest hlast ih =>
    simp only [List.flatMap_cons, List.mem_append] at h ⊢
    rcases h with h | h
    · split at h
      · rcases List.mem_append.1 h with h | h
        · exact .inl (.inl ((List.dropLast_sublist t).subset h))
        · exact .inr (visible_of_mem_numeral h)
      · rcases List.mem_append.1 h with h | h
        · exact .inl (.inl h)
        · exact .inl (.inr (.inl h))
    · exact (ih h).imp_left fun hmem => .inr (.inr hmem)
  | case3 before t w rest hlast ih =>
    simp only [List.flatMap_cons, List.mem_append] at h ⊢
    rcases h with (h | h) | h
    · exact .inl (.inl h)
    · exact (mem_shortenWord h).imp_left fun hmem => .inr (.inl hmem)
    · exact (ih h).imp_left fun hmem => .inr (.inr hmem)
  | case4 before w rest ih =>
    simp only [List.flatMap_cons, List.mem_append] at h ⊢
    rcases h with h | h
    · exact (mem_shortenWord h).imp_left .inl
    · exact (ih h).imp_left .inr
  | case5 before g rest _ _ ih =>
    simp only [List.flatMap_cons, List.mem_append] at h ⊢
    rcases h with h | h
    · exact .inl (.inl h)
    · exact (ih h).imp_left .inr

theorem newline_not_mem_shortenNumerals {t : Text} (h : '\n' ∉ t) : '\n' ∉ shortenNumerals t := by
  intro hmem
  rcases mem_shortenSegments hmem with hold | hvisible
  · rw [Text.flatMap_text_segments] at hold
    exact h hold
  · exact absurd hvisible (by decide)

/-- A name stays. -/
theorem shortenFrom_ident {before : Option Char} {w t : Text} (hw : isIdent w = true)
    (ht : StartsNoWord t) :
    shortenFrom before (w ++ t) = w ++ shortenFrom w.getLast? t := by
  have hne : w ≠ [] := by
    rintro rfl
    cases hw
  have hword : ∀ after, shortenWord before after w = w := by
    intro after
    refine if_neg fun hdigit => ?_
    obtain ⟨c, hc, hdigit⟩ := (Option.any_eq_true ..).1 hdigit
    rw [Text.not_isDigit_of_isIdent hw c hc] at hdigit
    cases hdigit
  rw [shortenFrom_word hne (Text.isWordChar_of_isIdent hw) ht, hword]

/-- A name that is no hexadecimal number stays where it stands by itself. -/
theorem apart_ident {w : Text} (hw : isIdent w = true) (hhex : hexValue? w = none) : Apart w w := by
  have hempty : StartsNoWord [] := nofun
  refine ⟨fun before => ?_, fun before => ?_⟩
  · have hword : shortenFrom before (w ++ []) = _ := shortenFrom_ident hw hempty
    simpa using hword
  · have hdollar : shortenFrom before ('$' :: (w ++ [])) = _ :=
      shortenFrom_dollar (Text.ne_nil_of_isIdent hw) (Text.isWordChar_of_isIdent hw) hempty
    simpa [hhex] using hdollar

/-- Names with spaces between them stay. -/
theorem shortenFrom_joined {ws : List Text} (hne : ws ≠ []) (hws : ∀ w ∈ ws, isIdent w = true)
    {t r : Text}
    (ht : ∀ before, shortenFrom before t = r) (hstart : StartsNoWord t) (before : Option Char) :
    shortenFrom before (Text.joined ' ' ws ++ t) = Text.joined ' ' ws ++ r := by
  match ws with
  | [w] =>
    have hone : Text.joined ' ' [w] = w := by simp [Text.joined, List.intercalate]
    rw [hone, shortenFrom_ident (hws w List.mem_cons_self) hstart, ht]
  | w :: u :: more =>
    rw [List.forall_mem_cons] at hws
    rw [Text.joined_cons_cons, List.append_assoc, List.cons_append,
      shortenFrom_ident hws.1 (Text.startsNoWord_of_isOtherChar (by decide) _),
      shortenFrom_other (by decide) (.inl (by decide)),
      shortenFrom_joined (by simp) hws.2 ht hstart, List.append_assoc]
    rfl

/-! ### Lines -/

/-- A text that ends where a line ends. -/
def WholeLines (t : Text) : Prop := t = [] ∨ ∃ u, t = u ++ ['\n']

theorem dropEmptyLines_append_newline (fresh : Bool) (s t : Text) :
    dropEmptyLines fresh (s ++ '\n' :: t) =
      dropEmptyLines fresh (s ++ ['\n']) ++ dropEmptyLines true t := by
  induction s generalizing fresh with
  | nil => cases fresh <;> rfl
  | cons c rest ih =>
    rw [List.cons_append, List.cons_append, dropEmptyLines, dropEmptyLines]
    split
    · split
      · exact ih true
      · rw [ih true, List.cons_append]
    · rw [ih false, List.cons_append]

/-- What is left of lines that are ended is ended. -/
theorem dropEmptyLines_newline (fresh : Bool) (s : Text) :
    (fresh = true ∧ dropEmptyLines fresh (s ++ ['\n']) = []) ∨
      ∃ u, dropEmptyLines fresh (s ++ ['\n']) = u ++ ['\n'] := by
  induction s generalizing fresh with
  | nil =>
    cases fresh
    · exact .inr ⟨[], rfl⟩
    · exact .inl ⟨rfl, rfl⟩
  | cons c rest ih =>
    rw [List.cons_append, dropEmptyLines]
    split
    · rename_i hc
      split
      · rename_i hfresh
        rw [hfresh]
        exact ih true
      · rcases ih true with ⟨-, hnil⟩ | ⟨u, hu⟩
        · exact .inr ⟨[], by rw [hnil, hc]; rfl⟩
        · exact .inr ⟨c :: u, by rw [hu]; rfl⟩
    · rcases ih false with ⟨hfalse, -⟩ | ⟨u, hu⟩
      · cases hfalse
      · exact .inr ⟨c :: u, by rw [hu]; rfl⟩

/-- The lines above a text are closed up apart from it. -/
theorem dropEmptyLines_ended (ls : List Text) (t : Text) :
    ∃ above, dropEmptyLines true (ended ls ++ t) = above ++ dropEmptyLines true t ∧
    above = collapseNewlines (ended ls) ∧
      WholeLines above := by
  rcases eq_or_ne ls [] with rfl | hne
  · exact ⟨[], rfl, rfl, .inl rfl⟩
  · rw [Text.ended_eq_joined hne, List.append_assoc, List.singleton_append]
    refine ⟨_, dropEmptyLines_append_newline true _ t, rfl, ?_⟩
    exact (dropEmptyLines_newline true _).imp_left And.right

end Output

theorem Literals.restore_of_not_mem {ls : Literals} {t : Text} (h : mark ∉ t) :
    ls.restore t = t := by
  induction t with
  | nil => exact restore_nil
  | cons c rest ih =>
    rw [List.mem_cons, not_or] at h
    rw [restore_cons (Ne.symm h.1), ih h.2]

theorem Sealed.restore_append {n : Nat} {s : Text} (hs : Sealed n s) (ls : Literals) (t : Text) :
    ls.restore (s ++ t) = ls.restore s ++ ls.restore t := by
  induction hs with
  | nil => rw [List.nil_append, Literals.restore_nil, List.nil_append]
  | @char c s hc _ ih =>
    rw [List.cons_append, Literals.restore_cons hc, Literals.restore_cons hc, ih, List.cons_append]
  | @literal k s _ _ ih =>
    have hstep : ∀ u, ls.restore (placeholder k ++ u) =
        ls.restoreSegment (.placeholder (placeholder k)) ++ ls.restore u := by
      intro u
      rw [Literals.restore, Literal.segments_placeholder]
      rfl
    rw [List.append_assoc, hstep, hstep, ih, List.append_assoc]

theorem Sealed.of_ended {n : Nat} {ls : List Text} (h : Sealed n (ended ls)) :
    ∀ l ∈ ls, Sealed n l := by
  induction ls with
  | nil => nofun
  | cons l rest ih =>
    rw [Text.ended_cons] at h
    obtain ⟨hl, hrest⟩ := h.of_append_cons (by decide)
    exact List.forall_mem_cons.2 ⟨hl, ih hrest⟩

namespace Output

/-- Every line stands in the text. What a line starts with follows the lines above it. -/
theorem exists_emit_line {p : Program} (h : p.Sealed) {l run rest : Text} (hl : l ∈ p.lines)
    (hshort : shortenNumerals l = run ++ rest) (hrun : Sealed p.literals.size run) (hne : run ≠ [])
    (hnewline : '\n' ∉ run) :
    ∃ above below, WholeLines above ∧
      emit p = above ++
      (p.literals.restore run ++
        p.literals.restore (dropEmptyLines false (rest ++ '\n' :: below))) := by
  have hassembled := sealed_assemble h
  rw [assemble_eq_ended] at hassembled
  have hlines := hassembled.of_ended
  obtain ⟨before, after, hsplit⟩ := List.append_of_mem hl
  have hshorten : shortenNumerals (assemble p) = ended (before.map shortenNumerals) ++
      (run ++ (rest ++ '\n' :: ended (after.map shortenNumerals))) := by
    rw [assemble_eq_ended, shortenNumerals_ended hlines, hsplit, List.map_append, List.map_cons,
      Text.ended_append, Text.ended_cons, hshort, List.append_assoc]
  have hbefore : Sealed p.literals.size (ended (before.map shortenNumerals)) := by
    refine sealed_ended fun t ht => ?_
    obtain ⟨line, hline, rfl⟩ := List.mem_map.1 ht
    exact sealed_shortenNumerals (hlines line (hsplit ▸ List.mem_append_left _ hline))
  obtain ⟨above, hdrop, habove, hends⟩ := dropEmptyLines_ended (before.map shortenNumerals)
    (run ++ (rest ++ '\n' :: ended (after.map shortenNumerals)))
  have habove' : Sealed p.literals.size above := habove ▸ hbefore.collapseNewlines
  refine ⟨p.literals.restore above, ended (after.map shortenNumerals), ?_, ?_⟩
  · rcases hends with rfl | ⟨u, rfl⟩
    · exact .inl Literals.restore_nil
    · have hu := (habove'.of_append_cons (by decide)).1
      exact .inr
        ⟨p.literals.restore
          u, by rw [hu.restore_append, Literals.restore_cons (by decide), Literals.restore_nil]⟩
  · rw [emit, compact, hshorten, collapseNewlines, hdrop, Sealed.dropEmptyLines_append hne hnewline,
      habove'.restore_append, hrun.restore_append]

/-! ### Declarations and bodies -/

theorem mem_lines_of_mem_declarations {p : Program} {d : Syntax.Declaration}
    (h : d ∈ p.declarations) :
    d.render ∈ p.lines := by
  rw [Program.lines, if_neg (List.ne_nil_of_mem h)]
  exact List.mem_append_left _
    (List.mem_cons_of_mem _ (List.mem_append_left _ (List.mem_map_of_mem h)))

theorem mem_lines_of_mem_functions {p : Program} {f : Syntax.Function} (h : f ∈ p.functions)
    {line : Text} (hline : line ∈ Text.pieces '\n' f.body) : line ∈ p.lines := by
  refine List.mem_append_right _ (List.mem_append_right _ (List.mem_flatMap.2 ⟨f, h, ?_⟩))
  exact List.mem_cons_of_mem _ (List.mem_append_left _ hline)

/-- A declaration is written on a line of its own: its words, and then its value or the end
of the line. -/
theorem exists_emit_declaration {p : Program} (h : p.Sealed) {d : Syntax.Declaration}
    (hd : d ∈ p.declarations) (hwords : ∀ w ∈ d.words, isIdent w = true) :
    ∃ above c below, WholeLines above ∧ (c = '=' ∨ c = '\n') ∧
      emit p = above ++ (Text.joined ' ' d.words ++ c :: below) := by
  obtain ⟨rest, hrest, hshort⟩ : ∃ rest, (rest = [] ∨ ∃ value, rest = '=' :: value) ∧
      shortenNumerals d.render = Text.joined ' ' d.words ++ rest := by
    rw [Syntax.Declaration.render_eq]
    unfold Syntax.Declaration.assigned
    split
    · have hequals := apart_cons (c := '=') (by decide) (by decide) (by decide)
      exact ⟨_, .inr ⟨_, rfl⟩, shortenFrom_joined d.words_ne_nil hwords (hequals _).alone
        (Text.startsNoWord_of_isOtherChar (by decide) _) none⟩
    · exact ⟨[], .inl rfl, shortenFrom_joined d.words_ne_nil hwords (fun _ => shortenFrom_nil)
        nofun none⟩
  have hne : Text.joined ' ' d.words ≠ [] :=
    (Layout.Solid.joined Layout.Solid.append_space d.words_ne_nil fun w hw => Text.solid_of_isIdent
      (hwords w hw)).ne_nil
  have hmark := Text.not_mem_joined d.words_ne_nil hwords (c := mark) (by decide) (by decide)
  have hnewline := Text.not_mem_joined d.words_ne_nil hwords (c := '\n') (by decide) (by decide)
  obtain ⟨above, below, hends, hemit⟩ :=
    exists_emit_line h (mem_lines_of_mem_declarations hd) hshort
    (.of_not_mem hmark) hne hnewline
  rw [Literals.restore_of_not_mem hmark] at hemit
  rcases hrest with rfl | ⟨value, rfl⟩
  · rw [List.nil_append, dropEmptyLines, if_pos rfl, if_neg Bool.false_ne_true,
      Literals.restore_cons (by decide)] at hemit
    exact ⟨above, '\n', _, hends, .inr rfl, hemit⟩
  · rw [List.cons_append, dropEmptyLines, if_neg (by decide),
      Literals.restore_cons (by decide)] at hemit
    exact ⟨above, '=', _, hends, .inl rfl, hemit⟩

/-- A line of a body is written with its numerals short and its literals put back. -/
theorem exists_emit_body {p : Program} (h : p.Sealed) {f : Syntax.Function} (hf : f ∈ p.functions)
    {line : Text} (hline : line ∈ Text.pieces '\n' f.body) (hne : shortenNumerals line ≠ []) :
    ∃ above below, WholeLines above ∧
      emit p = above ++ (p.literals.restore (shortenNumerals line) ++ '\n' :: below) := by
  have hsealed := sealed_shortenNumerals ((h.functions f hf).body.pieces (by decide) line hline)
  obtain ⟨above, below, hends, hemit⟩ := exists_emit_line h (mem_lines_of_mem_functions hf hline)
    (List.append_nil _).symm hsealed hne
      (newline_not_mem_shortenNumerals (Text.not_mem_of_mem_pieces hline))
  rw [List.nil_append, dropEmptyLines, if_pos rfl, if_neg Bool.false_ne_true,
    Literals.restore_cons (by decide)] at hemit
  exact ⟨above, _, hends, hemit⟩

end Output

/-! ### Calls -/

open Output (shortenNumerals shortenFrom hexValue?)

/-- A call is written with its literal in the place of the second argument. The name of the
call stands before it, unless a dollar sign makes it a number. -/
theorem LiteralCall.exists_restore {callee first line raw : Text} {n m : Nat} {ls : Literals}
    (hsealed : Sealed m line)
    (h : LiteralCall callee first n line) (hn : n < indexLimit) (hraw : ls.get? n = some raw) :
    ∃ head c tail, (c = ',' ∨ c = ')') ∧
      ls.restore (shortenNumerals line) = head ++ '(' ::
      (ls.restore (shortenNumerals first) ++ ',' :: (raw ++ c :: tail)) ∧
      (isIdent callee = true → hexValue? callee = none → ∃ u, head = u ++ callee) := by
  obtain ⟨before, c, tail, hc, rfl, hapart⟩ := h.exists_text
  rw [← List.append_assoc] at hsealed ⊢
  obtain ⟨hstart, hlist⟩ := hsealed.of_append_cons (by decide)
  obtain ⟨hfirst, hrest⟩ := hlist.of_append_cons (by decide)
  have hnext : Output.Apart (c :: tail) (c :: shortenNumerals tail) := by
    rcases hc with rfl | rfl
    · exact Output.apart_cons (by decide) (by decide) (by decide) tail
    · exact Output.apart_cons (by decide) (by decide) (by decide) tail
  have hshort :
      shortenNumerals
        ((before ++ callee) ++ '(' :: (first ++ ',' :: (placeholder n ++ c :: tail))) =
      shortenNumerals (before ++ callee) ++
        '(' :: (shortenNumerals first ++ ',' :: (placeholder n ++ c :: shortenNumerals tail)) := by
    have hliteral :
        shortenNumerals (placeholder n ++ c :: tail) = placeholder n ++ c :: shortenNumerals tail :=
      Output.shortenFrom_placeholder n |>.trans (by rw [hnext.alone])
    rw [Output.shortenNumerals_append_cons hstart (by decide) (by decide) (by decide),
      Output.shortenNumerals_append_cons hfirst (by decide) (by decide) (by decide), hliteral]
  refine ⟨ls.restore (shortenNumerals (before ++ callee)), c,
    ls.restore (shortenNumerals tail), hc, ?_,
    fun hident hhex => ?_⟩
  · have hmark : c ≠ mark := by
      rcases hc with rfl | rfl
      · decide
      · decide
    rw [hshort, (Output.sealed_shortenNumerals hstart).restore_append,
      Literals.restore_cons (by decide), (Output.sealed_shortenNumerals hfirst).restore_append,
      Literals.restore_cons (by decide), Literals.restore_placeholder hn hraw,
      Literals.restore_cons hmark]
  · have hmark : mark ∉ callee := Text.mark_not_mem_of_isIdent hident
    have hbefore := hstart.of_append_of_not_mem hmark
    have hname : shortenNumerals (before ++ callee) = shortenNumerals before ++ callee := by
      refine Output.shortenFrom_append hbefore (Output.apart_ident hident hhex)
        (fun d hd hw => ?_) none
      rw [hapart d hd] at hw
      cases hw
    refine ⟨ls.restore (shortenNumerals before), ?_⟩
    rw [hname, (Output.sealed_shortenNumerals hbefore).restore_append,
      Literals.restore_of_not_mem hmark]

end ScriptMinifier
