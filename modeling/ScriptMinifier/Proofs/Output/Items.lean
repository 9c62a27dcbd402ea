import ScriptMinifier.Proofs.Literal.Passes
import ScriptMinifier.Proofs.Output.Legible

/-! The text of a program as a list of blocks.

The text of a legible program, with newlines collapsed, is a list of items: one for the
declarations if there are any, one for each native, one for each function
(`collapseNewlines_assemble`). Each of them is read as one block (`proper_items`), and no quote
and no comment sign stands in them, so the restored text is read as these blocks
(`lexemes_restore_items`). -/
namespace ScriptMinifier

open Text (mark isQuote isWordChar isBlank words ended joined)
open Literal (indexLimit)
open Source (Item Lexeme Uncommented)
open Layout (collapseNewlines squeezeBlock squeezeNative)
open Output (assemble)
open Syntax (Declaration Function Native Parameter Header)

/-! ### Lines -/

namespace Syntax

/-- The line that opens a function. -/
def Function.opening (f : Function) : Text := "function".toList ++ ' ' :: f.header.text

theorem Function.render_eq (f : Function) :
    f.render = f.opening ++ '\n' :: (f.body ++ '\n' :: "endfunction".toList) := by
  have hfunction : "function ".toList = "function".toList ++ [' '] := by decide
  have hend : "\nendfunction".toList = '\n' :: "endfunction".toList := by decide
  unfold Function.render Function.opening Function.header Header.text
  rw [hfunction, hend]
  simp only [List.append_assoc, List.cons_append, List.nil_append]

theorem Function.render_ended (f : Function) :
    f.render ++ ['\n'] = ended
    (f.opening :: (Text.pieces '\n' f.body ++ ["endfunction".toList])) := by
  have hbody : ended (Text.pieces '\n' f.body) = f.body ++ ['\n'] := by
    rw [Text.ended_eq_joined (Text.pieces_ne_nil '\n' f.body), Text.joined_pieces]
  rw [f.render_eq, Text.ended_cons, Text.ended_append, hbody]
  simp only [Text.ended_cons, Text.ended_nil, List.append_assoc, List.cons_append, List.nil_append]

end Syntax

/-- The lines of a program. -/
def Program.lines (p : Program) : List Text :=
  (if p.declarations = [] then []
    else "globals".toList :: (p.declarations.map Declaration.render ++ ["endglobals".toList])) ++
    (p.natives.map Native.render ++
      p.functions.flatMap fun f => f.opening :: (Text.pieces '\n' f.body ++ ["endfunction".toList]))

theorem assemble_eq_ended (p : Program) : assemble p = ended p.lines := by
  have hdeclarations : p.declarations.flatMap (fun d => d.render ++ ['\n']) =
      ended (p.declarations.map Declaration.render) := by rw [ended, List.flatMap_map]
  have hnatives :
      p.natives.flatMap (fun n => n.render ++ ['\n']) = ended (p.natives.map Native.render) := by
    rw [ended, List.flatMap_map]
  have hfunctions : ∀ fs : List Function, fs.flatMap (fun f => f.render ++ ['\n']) =
      ended (fs.flatMap fun f =>
        f.opening :: (Text.pieces '\n' f.body ++ ["endfunction".toList])) := by
    intro fs
    induction fs with
    | nil => rfl
    | cons f rest ih =>
      rw [List.flatMap_cons, List.flatMap_cons, Text.ended_append, ih, Function.render_ended]
  simp only [assemble, Program.lines, hdeclarations, hnatives, hfunctions, Text.ended_append]
  split
  · simp
  · simp

/-- A program as a list of blocks. -/
def Program.items (p : Program) : List Item :=
  (if p.declarations = [] then []
    else [⟨.globals, ended ([] :: p.declarations.map Declaration.render)⟩]) ++
    (p.natives.map (fun n => ⟨.native, n.inner⟩) ++ p.functions.map fun f => ⟨.function, f.inner⟩)

variable {p : Program}

/-- The lines of a function that are not empty. -/
theorem filter_functionLines {f : Function} (h : f.Regular) :
    (f.opening :: (Text.pieces '\n' f.body ++ ["endfunction".toList])).filter (· ≠ []) =
      f.opening :: (f.lines ++ ["endfunction".toList]) := by
  have hopening : f.opening ≠ [] := by
    unfold Function.opening
    exact List.append_ne_nil_of_right_ne_nil _ (List.cons_ne_nil _ _)
  have hend : (["endfunction".toList] : List Text).filter (· ≠ []) = ["endfunction".toList] := by
    decide
  have hbody : (Text.pieces '\n' f.body).filter (· ≠ []) = f.lines := by
    rw [Function.lines]
    split
    · rename_i hnil
      rw [hnil]
      rfl
    · rename_i hne
      exact List.filter_eq_self.2 fun line hline => by simpa using (h.body hne line hline).ne_nil
  rw [List.filter_cons_of_pos (by simpa using hopening), List.filter_append, hbody, hend]

theorem newline_not_mem_opening {f : Function} (h : f.Regular) : '\n' ∉ f.opening := by
  have hfunction : '\n' ∉ "function".toList := by decide
  unfold Function.opening
  rw [List.mem_append, List.mem_cons, not_or, not_or]
  exact ⟨hfunction, by decide, Function.newline_not_mem_header h⟩

theorem mem_native {n : Native} (h : n.Legible) {c : Char} (hc : c ∈ n.inner) :
    isWordChar c = true ∨ c = ' ' ∨ c = ',' := by
  rcases List.mem_cons.1 hc with rfl | hc
  · exact .inr (.inl rfl)
  rcases Header.mem_text (h := n.header) h.name h.result hc with hc | hword | rfl
  · exact Parameter.mem_renderAll h.params hc
  · exact .inl hword
  · exact .inr (.inl rfl)

theorem not_mem_native {n : Native} (h : n.Legible) {c : Char} (hword : isWordChar c = false)
    (hspace : c ≠ ' ') (hcomma : c ≠ ',') : c ∉ n.render := by
  have hkeyword : ∀ d ∈ "native".toList, isWordChar d = true := by decide
  rw [Native.render_eq, List.mem_append, not_or]
  constructor
  · intro hmem
    rw [hkeyword c hmem] at hword
    cases hword
  · intro hmem
    rcases mem_native h hmem with hw | hs | hcm
    · rw [hw] at hword
      cases hword
    · exact hspace hs
    · exact hcomma hcm

/-- A property of all lines of a program, seen part by part. -/
theorem forall_lines {P : Text → Prop}
    (hwords : ∀ w ∈ ["globals".toList, "endglobals".toList, "endfunction".toList], P w)
    (hdeclarations : ∀ d ∈ p.declarations, P d.render) (hnatives : ∀ n ∈ p.natives, P n.render)
    (hopenings : ∀ f ∈ p.functions, P f.opening)
    (hbodies : ∀ f ∈ p.functions, ∀ l ∈ Text.pieces '\n' f.body, P l) :
    ∀ l ∈ p.lines, P l := by
  simp only [List.forall_mem_cons, List.not_mem_nil, false_imp_iff, implies_true,
    and_true] at hwords
  obtain ⟨hglobals, hendglobals, hendfunction⟩ := hwords
  rw [Program.lines, List.forall_mem_append, List.forall_mem_append]
  refine ⟨?_, ?_, ?_⟩
  · split
    · nofun
    · rw [List.forall_mem_cons, List.forall_mem_append, List.forall_mem_singleton]
      refine ⟨hglobals, fun l hl => ?_, hendglobals⟩
      obtain ⟨d, hd, rfl⟩ := List.mem_map.1 hl
      exact hdeclarations d hd
  · intro l hl
    obtain ⟨n, hn, rfl⟩ := List.mem_map.1 hl
    exact hnatives n hn
  · intro l hl
    obtain ⟨f, hf, hl⟩ := List.mem_flatMap.1 hl
    rw [List.mem_cons, List.mem_append, List.mem_singleton] at hl
    rcases hl with rfl | hl | rfl
    · exact hopenings f hf
    · exact hbodies f hf l hl
    · exact hendfunction

theorem newline_not_mem_lines (h : p.Legible) : ∀ l ∈ p.lines, '\n' ∉ l :=
  forall_lines (by decide)
    (fun d hd => Declaration.newline_not_mem_render (h.declarations d hd).regular)
    (fun n hn => not_mem_native (h.natives n hn) (by decide) (by decide) (by decide))
    (fun f hf => newline_not_mem_opening (h.functions f hf).regular) fun _ _ _ hl =>
      Text.not_mem_of_mem_pieces hl

/-- The text of a legible program is its items, one after the other. -/
theorem collapseNewlines_assemble (h : p.Legible) :
    collapseNewlines (assemble p) = p.items.flatMap Item.text := by
  have hglobals : ended ((if p.declarations = [] then []
        else "globals".toList ::
          (p.declarations.map Declaration.render ++ ["endglobals".toList])).filter (· ≠ [])) =
      (if p.declarations = [] then []
        else [⟨.globals, ended ([] :: p.declarations.map Declaration.render)⟩]).flatMap
            Item.text := by
    split
    · rfl
    · have hkeep :
          ∀ l ∈ "globals".toList ::
            (p.declarations.map Declaration.render ++ ["endglobals".toList]), l ≠ [] := by
        rw [List.forall_mem_cons, List.forall_mem_append, List.forall_mem_singleton]
        refine ⟨by decide, fun l hl => ?_, by decide⟩
        obtain ⟨d, hd, rfl⟩ := List.mem_map.1 hl
        exact (Declaration.neat_render (h.declarations d hd).regular).ne_nil
      rw [List.filter_eq_self.2 fun l hl => by simpa using hkeep l hl, List.flatMap_singleton,
        Item.text_globals]
      simp only [Text.ended_cons, Text.ended_append, Text.ended_nil, List.cons_append,
        List.nil_append]
  have hnatives : ended ((p.natives.map Native.render).filter (· ≠ [])) =
      (p.natives.map fun n => (⟨.native, n.inner⟩ : Item)).flatMap Item.text := by
    have hkeep : ∀ l ∈ p.natives.map Native.render, l ≠ [] := by
      intro l hl
      obtain ⟨n, -, rfl⟩ := List.mem_map.1 hl
      rw [Native.render_eq]
      exact List.append_ne_nil_of_right_ne_nil _ (List.cons_ne_nil _ _)
    rw [List.filter_eq_self.2 fun l hl => by simpa using hkeep l hl, ended, List.flatMap_map,
      List.flatMap_map]
    refine List.flatMap_congr fun n _ => ?_
    rw [Native.render_eq, Item.text_native, List.append_assoc]
  have hfunctions : ∀ fs : List Function, (∀ f ∈ fs, f.Regular) →
      ended
        ((fs.flatMap fun f =>
          f.opening :: (Text.pieces '\n' f.body ++ ["endfunction".toList])).filter (· ≠ [])) =
        (fs.map fun f => (⟨.function, f.inner⟩ : Item)).flatMap Item.text := by
    intro fs hfs
    induction fs with
    | nil => rfl
    | cons f rest ih =>
      rw [List.forall_mem_cons] at hfs
      rw [List.flatMap_cons, List.filter_append, Text.ended_append, ih hfs.2,
        filter_functionLines hfs.1, List.map_cons, List.flatMap_cons]
      refine congrArg (· ++ _) ?_
      rw [Item.text_function]
      unfold Function.inner Function.opening
      simp only [Text.ended_cons, Text.ended_append, Text.ended_nil, List.append_assoc,
        List.cons_append]
  rw [assemble_eq_ended, Text.collapseNewlines_ended (newline_not_mem_lines h), Program.lines,
    List.filter_append, List.filter_append, Text.ended_append, Text.ended_append, hglobals,
    hnatives, hfunctions p.functions fun f hf => (h.functions f hf).regular, Program.items,
    List.flatMap_append, List.flatMap_append]

/-! ### Items are blocks -/

theorem words_ended {n : Nat} {ls : List Text} (h : ∀ l ∈ ls, Sealed n l) :
    words (ended ls) = ls.flatMap words := by
  induction ls with
  | nil => exact Text.words_nil
  | cons l rest ih =>
    rw [List.forall_mem_cons] at h
    rw [Text.ended_cons, h.1.words_append_cons (by decide), ih h.2, List.flatMap_cons]

theorem sealed_ended {n : Nat} {ls : List Text} (h : ∀ l ∈ ls, Sealed n l) : Sealed n (ended ls) :=
  Output.sealed_flatMap_ended h

theorem getLast?_ended {ls : List Text} (hne : ls ≠ []) : (ended ls).getLast? = some '\n' := by
  rw [Text.ended_eq_joined hne, List.getLast?_append]
  rfl

/-- A block of ended lines is proper when they lack the word that closes it. -/
theorem proper_ended {ls : Literals} {kind : Source.BlockKind} {closing first : Text}
    {more : List Text}
    (hclosing : kind.closing = .word closing) (hsealed : ∀ l ∈ first :: more, Sealed ls.size l)
    (hfirst : ∃ c ∈ (ended (first :: more)).head?, isWordChar c = false)
    (hwords : ∀ l ∈ first :: more, closing ∉ words l) :
    Item.Proper ls ⟨kind, ended (first :: more)⟩ := by
  refine ⟨sealed_ended hsealed, hfirst, fun c hc hword => ?_, fun hmem => ?_⟩
  · rw [getLast?_ended (List.cons_ne_nil _ _), Option.mem_some_iff] at hc
    rw [← hc] at hword
    cases hword
  · rw [hclosing] at hmem
    rcases Source.mem_heldLexemes hmem with ⟨w, hw, heq⟩ | ⟨c, -, heq⟩ | ⟨raw, heq⟩
    · rw [Lexeme.word.injEq] at heq
      rw [← heq, words_ended hsealed] at hw
      obtain ⟨l, hl, hmem⟩ := List.mem_flatMap.1 hw
      exact hwords l hl hmem
    · cases heq
    · cases heq

theorem proper_native {ls : Literals} {n : Native} (h : n.Legible) :
    Item.Proper ls ⟨.native, n.inner⟩ := by
  have hmark : mark ∉ n.inner := by
    intro hmem
    rcases mem_native h hmem with hword | hspace | hcomma
    · exact absurd hword (by decide)
    · exact absurd hspace (by decide)
    · exact absurd hcomma (by decide)
  refine ⟨.of_not_mem hmark, ⟨' ', rfl, by decide⟩, fun _ _ _ => rfl, fun hmem => ?_⟩
  rcases Source.mem_heldLexemes hmem with ⟨w, -, heq⟩ | ⟨c, hc, heq⟩ | ⟨raw, heq⟩
  · cases heq
  · rw [Source.BlockKind.closing, Lexeme.char.injEq] at heq
    rw [← heq] at hc
    rcases mem_native h hc with hword | hspace | hcomma
    · exact absurd hword (by decide)
    · exact absurd hspace (by decide)
    · exact absurd hcomma (by decide)
  · cases heq

theorem sealed_header {n : Nat} {f : Function} (h : f.Legible n) : Sealed n f.header.text := by
  refine .of_not_mem fun hmem => ?_
  exact not_mem_header h.regular.name h.regular.result h.listing (by decide) (by decide)
    (by decide) hmem

theorem proper_function {ls : Literals} {f : Function} (h : f.Legible ls.size) :
    Item.Proper ls ⟨.function, f.inner⟩ := by
  have hlines : ∀ l ∈ f.lines, Sealed ls.size l := by
    have hbody := h.sealed.body
    rw [← Function.joined_lines f] at hbody
    exact Sealed.of_joined (by decide) hbody
  refine proper_ended rfl (List.forall_mem_cons.2 ⟨.char (by decide) (sealed_header h), hlines⟩)
    ⟨' ', rfl, by decide⟩ ?_
  rw [List.forall_mem_cons, Text.words_other (by decide)]
  refine ⟨h.header.words, fun l hl hmem => h.body.words ?_⟩
  rw [← Function.joined_lines f, Sealed.words_joined (by decide) hlines, List.mem_flatMap]
  exact ⟨l, hl, hmem⟩

theorem proper_items (h : p.Legible) : ∀ i ∈ p.items, i.Proper p.literals := by
  rw [Program.items, List.forall_mem_append, List.forall_mem_append]
  refine ⟨?_, ?_, ?_⟩
  · split
    · nofun
    · rw [List.forall_mem_singleton]
      refine proper_ended rfl ?_ ⟨'\n', rfl, by decide⟩ ?_
      · rw [List.forall_mem_cons]
        refine ⟨.nil, fun l hl => ?_⟩
        obtain ⟨d, hd, rfl⟩ := List.mem_map.1 hl
        exact Output.sealed_renderDeclaration (h.declarations d hd).sealed
      · rw [List.forall_mem_cons, Text.words_nil]
        refine ⟨List.not_mem_nil, fun l hl => ?_⟩
        obtain ⟨d, hd, rfl⟩ := List.mem_map.1 hl
        exact (h.declarations d hd).bare.words
  · intro i hi
    obtain ⟨n, hn, rfl⟩ := List.mem_map.1 hi
    exact proper_native (h.natives n hn)
  · intro i hi
    obtain ⟨f, hf, rfl⟩ := List.mem_map.1 hi
    exact proper_function (h.functions f hf)

/-! ### Reading the text -/

theorem quotes_lines (h : p.Legible) : ∀ l ∈ p.lines, ∀ c ∈ l, isQuote c = false := by
  have hnot : ∀ {t : Text}, (∀ c, isQuote c = true → c ∉ t) → ∀ c ∈ t, isQuote c = false := by
    intro t ht c hc
    rw [Bool.eq_false_iff]
    exact fun hquote => ht c hquote hc
  have hspace : ∀ {c : Char}, isQuote c = true → c ≠ ' ' := by
    rintro c hc rfl
    cases hc
  refine forall_lines (by decide) (fun d hd => (h.declarations d hd).bare.quotes)
    (fun n hn => hnot fun c hc => ?_)
    (fun f hf => hnot fun c hc => ?_) fun f hf l hl c hc => ?_
  · obtain ⟨hword, -, hcomma⟩ := not_visible_of_isQuote hc
    exact not_mem_native (h.natives n hn) hword (hspace hc) hcomma
  · have hkeyword : ∀ d ∈ "function".toList, isQuote d = false := by decide
    intro hmem
    unfold Function.opening at hmem
    rw [List.mem_append, List.mem_cons] at hmem
    rcases hmem with hmem | rfl | hmem
    · rw [hkeyword c hmem] at hc
      cases hc
    · cases hc
    · rw [(h.functions f hf).header.quotes c hmem] at hc
      cases hc
  · refine (h.functions f hf).body.quotes c ?_
    rw [← Text.joined_pieces '\n' f.body]
    exact (infix_joined '\n' hl).subset hc

theorem comments_lines (h : p.Legible) : ∀ l ∈ p.lines, Uncommented l := by
  have hfixed : ∀ w ∈ ["globals".toList, "endglobals".toList, "endfunction".toList],
      '/' ∉ w := by decide
  refine forall_lines (fun w hw => .of_not_mem (hfixed w hw))
    (fun d hd => (h.declarations d hd).comments)
    (fun n hn => .of_not_mem ?_) (fun f hf => ?_) fun f hf l hl => ?_
  · exact not_mem_native (h.natives n hn) (by decide) (by decide) (by decide)
  · have hkeyword : '/' ∉ "function".toList := by decide
    unfold Function.opening
    refine .append_cons (by decide) (by decide) (.of_not_mem hkeyword) (.of_not_mem ?_)
    exact not_mem_header (h.functions f hf).regular.name (h.functions f hf).regular.result
      (h.functions f hf).listing
      (by decide) (by decide) (by decide)
  · refine (h.functions f hf).comments.of_part ?_
    conv => rhs; rw [← Text.joined_pieces '\n' f.body]
    exact infix_joined '\n' hl

/-- The restored text of a legible program is read as its items. -/
theorem lexemes_restore_items (h : p.Legible)
    (hsealed : Sealed p.literals.size (collapseNewlines (assemble p))) :
    Source.lexemes (p.literals.restore (collapseNewlines (assemble p))) = p.items.flatMap
    (Item.lexemes p.literals) := by
  have hended : collapseNewlines (assemble p) = ended (p.lines.filter (· ≠ [])) := by
    rw [assemble_eq_ended, Text.collapseNewlines_ended (newline_not_mem_lines h)]
  have hkept : ∀ l ∈ p.lines.filter (· ≠ []), l ∈ p.lines := fun l hl => (List.mem_filter.1 hl).1
  have hquotes : ∀ c ∈ collapseNewlines (assemble p), isQuote c = false := by
    intro c hc
    rw [hended] at hc
    rcases Text.mem_ended hc with rfl | ⟨l, hl, hc⟩
    · decide
    · exact quotes_lines h l (hkept l hl) c hc
  have hcomments : Uncommented (collapseNewlines (assemble p)) := by
    rw [hended]
    exact .ended fun l hl => comments_lines h l (hkept l hl)
  rw [Source.lexemes_restore h.limit h.literals hsealed hquotes hcomments,
    collapseNewlines_assemble h, Item.heldLexemes_items (proper_items h)]

/-- The placeholders of the items are those of the program. -/
theorem marks_items (h : p.Legible) :
    (p.items.map fun i => marks i.inner).sum ≤ 2 * p.literals.size := by
  have hended : ∀ ls : List Text, marks (ended ls) = (ls.map marks).sum := by
    intro ls
    induction ls with
    | nil => rfl
    | cons l rest ih =>
      rw [Text.ended_cons, marks_append, marks_cons (by decide), ih, List.map_cons, List.sum_cons]
  have hglobals : ((if p.declarations = [] then []
        else [(⟨.globals, ended ([] :: p.declarations.map Declaration.render)⟩ : Item)]).map
          fun i => marks i.inner).sum = (p.declarations.map fun d => marks d.render).sum := by
    split
    · rename_i hnil
      rw [hnil]
      rfl
    · rw [List.map_singleton, List.sum_singleton, hended, List.map_cons, List.sum_cons, marks_nil,
        Nat.zero_add, List.map_map]
      rfl
  have hnatives :
      ((p.natives.map fun n => (⟨.native, n.inner⟩ : Item)).map fun i => marks i.inner).sum =
        0 := by
    rw [List.map_map, List.sum_eq_zero_iff_forall_eq_nat]
    intro k hk
    obtain ⟨n, hn, rfl⟩ := List.mem_map.1 hk
    refine marks_eq_zero fun hmem => ?_
    rcases mem_native (h.natives n hn) hmem with hword | hspace | hcomma
    · exact absurd hword (by decide)
    · exact absurd hspace (by decide)
    · exact absurd hcomma (by decide)
  have hfunctions :
      ((p.functions.map fun f => (⟨.function, f.inner⟩ : Item)).map fun i => marks i.inner).sum =
      (p.functions.map fun f => marks f.body).sum := by
    rw [List.map_map]
    refine congrArg List.sum (List.map_congr_left fun f hf => ?_)
    have hheader : marks (' ' :: f.header.text) = 0 := by
      refine marks_eq_zero fun hmem => ?_
      rcases List.mem_cons.1 hmem with heq | hmem
      · exact absurd heq (by decide)
      · exact not_mem_header (h.functions f hf).regular.name (h.functions f hf).regular.result
          (h.functions f hf).listing (by decide) (by decide) (by decide) hmem
    show marks f.inner = _
    rw [Function.inner, hended, List.map_cons, List.sum_cons, hheader, Nat.zero_add,
      ← marks_joined (c := '\n') (by decide), Function.joined_lines]
  have hmarks := h.marks
  rw [Program.items, List.map_append, List.map_append, List.sum_append, List.sum_append, hglobals,
    hnatives, hfunctions]
  omega


end ScriptMinifier
