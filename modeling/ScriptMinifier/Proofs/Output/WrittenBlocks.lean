import ScriptMinifier.Proofs.Output.Enclosed
import ScriptMinifier.Proofs.Output.WrittenLines
import ScriptMinifier.Proofs.Syntax.Leading
import ScriptMinifier.Proofs.Usage.VariableEvents

/-! The blocks of a written text.

What a run writes is read line by line as closed blocks: one for the declarations if there are any,
one for each native, one for each function (`exists_blocks`). The header of a function and the words
of a declaration are read as they were written; nothing is said of bodies and values but that they
stay where they are. -/
namespace ScriptMinifier

open Literal (indexLimit)
open Output (Nominal Inner ReadsOn emit shortenNumerals shortenFrom)
open Source (ClosedBlock ClosedLiteral Lexeme collectBody heldLexemes lexemes)
open Syntax (Declaration Function Native Parameter Header isDatatype)
open Text (ended isWordChar mark StartsNoWord)

/-! ### Lines -/

namespace Syntax

/-- The lines of a block of declarations. -/
def Declaration.blockLines (ds : List Declaration) : List Text :=
  "globals".toList :: (ds.map render ++ ["endglobals".toList])

/-- The lines of a function. -/
def Function.blockLines (f : Function) : List Text :=
  f.opening :: (Text.pieces '\n' f.body ++ ["endfunction".toList])

/-- The lines of a body that do not come out empty. -/
def Function.writtenLines (f : Function) : List Text :=
  (Text.pieces '\n' f.body).filter (shortenNumerals · ≠ [])

end Syntax

namespace Program

variable {p : Program}

/-- The lists of declarations that are written: one if there are declarations. -/
def declarationBlocks (p : Program) : List (List Declaration) :=
  if p.declarations = [] then [] else [p.declarations]

theorem lines_eq (p : Program) :
    p.lines = p.declarationBlocks.flatMap Declaration.blockLines ++
      (p.natives.flatMap (fun n => [n.render]) ++ p.functions.flatMap Function.blockLines) := by
  rw [lines, declarationBlocks, ← List.map_eq_flatMap]
  split
  · rfl
  · rw [List.flatMap_singleton]
    rfl

/-- Lines as a program writes them, those that come out empty left out. -/
def writtenLines (p : Program) (ls : List Text) : Text :=
  ended ((ls.filter (shortenNumerals · ≠ [])).map p.spelled)

theorem writtenLines_nil (p : Program) : p.writtenLines [] = [] := rfl

theorem writtenLines_append (p : Program) (ls ls' : List Text) :
    p.writtenLines (ls ++ ls') = p.writtenLines ls ++ p.writtenLines ls' := by
  rw [writtenLines, List.filter_append, List.map_append, Text.ended_append]
  rfl

theorem writtenLines_flatMap {α : Type} (p : Program) (f : α → List Text) (xs : List α) :
    p.writtenLines (xs.flatMap f) = xs.flatMap fun x => p.writtenLines (f x) := by
  induction xs with
  | nil => rfl
  | cons x rest ih => rw [List.flatMap_cons, writtenLines_append, ih, List.flatMap_cons]

theorem writtenLines_cons {l : Text} (h : shortenNumerals l ≠ []) (ls : List Text) :
    p.writtenLines (l :: ls) = p.spelled l ++ '\n' :: p.writtenLines ls := by
  rw [writtenLines, List.filter_cons_of_pos (by simpa using h), List.map_cons, Text.ended_cons]
  rfl

theorem writtenLines_empty {l : Text} (h : shortenNumerals l = []) (ls : List Text) :
    p.writtenLines (l :: ls) = p.writtenLines ls := by
  rw [writtenLines, List.filter_cons_of_neg (by simpa using h)]
  rfl

theorem spelled_nominal {closing l : Text} (h : Nominal closing l) : p.spelled l = l := by
  rw [spelled, shortenNumerals, ← shortenFrom, h.shortenFrom_eq,
    Literals.restore_of_not_mem h.mark_not_mem]

theorem writtenLines_nominal {closing l : Text} (h : Nominal closing l) (hne : l ≠ [])
    (ls : List Text) :
    p.writtenLines (l :: ls) = l ++ '\n' :: p.writtenLines ls := by
  have hshort : shortenNumerals l ≠ [] := by
    rw [shortenNumerals, ← shortenFrom, h.shortenFrom_eq]
    exact hne
  rw [writtenLines_cons hshort, spelled_nominal h]

end Program

theorem Literals.restore_ended {n : Nat} {ls : List Text} (literals : Literals)
    (h : ∀ l ∈ ls, Sealed n l) :
    literals.restore (ended ls) = ended (ls.map literals.restore) := by
  induction ls with
  | nil => exact restore_nil
  | cons l rest ih =>
    rw [List.forall_mem_cons] at h
    rw [Text.ended_cons, h.1.restore_append, restore_cons (by decide), ih h.2, List.map_cons,
      Text.ended_cons]

/-- A program is written line by line. -/
theorem emit_eq_writtenLines {p : Program} (h : p.Sealed) (hlines : ∀ l ∈ p.lines, '\n' ∉ l) :
    emit p = p.writtenLines p.lines := by
  have hassembled := Output.sealed_assemble h
  rw [assemble_eq_ended] at hassembled
  have hsealed := hassembled.of_ended
  have hnewline : ∀ l ∈ p.lines.map shortenNumerals, '\n' ∉ l := by
    intro l hl
    obtain ⟨line, hline, rfl⟩ := List.mem_map.1 hl
    exact Output.newline_not_mem_shortenNumerals (hlines line hline)
  have hshort : ∀ l ∈ (p.lines.filter (shortenNumerals · ≠ [])).map shortenNumerals,
      Sealed p.literals.size l := by
    intro l hl
    obtain ⟨line, hline, rfl⟩ := List.mem_map.1 hl
    exact Output.sealed_shortenNumerals (hsealed line (List.mem_filter.1 hline).1)
  rw [emit, Output.compact, assemble_eq_ended, Output.shortenNumerals_ended hsealed,
    Text.collapseNewlines_ended hnewline, List.filter_map, Program.writtenLines]
  refine (p.literals.restore_ended hshort).trans ?_
  rw [List.map_map]
  rfl

/-! ### Names -/

section Names

variable {closing : Text}

/-- The words that a run writes beside names close no block. -/
theorem nameIn_keyword (hclosing : closing ∈ [] :: closingWords) {w : Text}
    (hw : w ∈ ["takes", "returns", "nothing", "native", "function", "constant", "array"].map
      String.toList) : NameIn closing w := by
  have hall : ∀ closing ∈ [] :: closingWords,
      ∀ w ∈ ["takes", "returns", "nothing", "native", "function", "constant", "array"].map
        String.toList, Text.isIdent w = true ∧ w ≠ closing := by decide +kernel
  exact ⟨(hall closing hclosing w hw).1, (hall closing hclosing w hw).2⟩

theorem nominal_renderAll (hclosing : closing ∈ [] :: closingWords) {qs : List Parameter}
    (h : ∀ q ∈ qs, NameIn closing q.type ∧ NameIn closing q.name) :
    Nominal closing (Parameter.renderAll qs) := by
  rw [Parameter.renderAll]
  split
  · exact .of_name (nameIn_keyword hclosing (by simp))
  · refine .joined (.inr rfl) fun t ht => ?_
    obtain ⟨q, hq, rfl⟩ := List.mem_map.1 ht
    exact .append_cons (.inl rfl) (.of_name (h q hq).1) (.of_name (h q hq).2)

theorem nominal_header (hclosing : closing ∈ [] :: closingWords) {h : Header}
    (hname : NameIn closing h.name)
    (hparams : Nominal closing h.params) (hresult : NameIn closing h.result) :
    Nominal closing h.text := by
  rw [Header.text_eq_joined]
  refine .joined (.inl rfl) ?_
  simp only [List.forall_mem_cons, List.not_mem_nil, false_imp_iff, implies_true, and_true]
  exact ⟨.of_name hname, .of_name (nameIn_keyword hclosing (by simp)), hparams,
    .of_name (nameIn_keyword hclosing (by simp)), .of_name hresult⟩

theorem nominal_native {n : Native} (h : n.Legible) : Nominal [] n.header.text := by
  have hname : ∀ {w : Text}, Text.isIdent w = true → NameIn [] w :=
    fun hw => ⟨hw, Text.ne_nil_of_isIdent hw⟩
  refine nominal_header List.mem_cons_self (hname h.name) ?_ (hname h.result)
  exact nominal_renderAll List.mem_cons_self fun q hq =>
    ⟨hname (h.params q hq).1, hname (h.params q hq).2⟩

theorem nominal_words {d : Declaration} (h : d.Enclosed) :
    Nominal "endglobals".toList (Text.joined ' ' d.words) := by
  have hclosing : "endglobals".toList ∈ [] :: closingWords := by decide
  have htype : NameIn "endglobals".toList d.type := by
    refine ⟨Syntax.isIdent_of_isDatatype h.type, fun heq => ?_⟩
    have hnot : isDatatype "endglobals".toList = false := by decide +kernel
    rw [← heq, h.type] at hnot
    cases hnot
  refine .joined (.inl rfl) fun w hw => .of_name ?_
  simp only [Declaration.words, List.mem_append, List.mem_cons] at hw
  rcases hw with hw | rfl | hw | rfl | hw
  · split at hw
    · rw [List.mem_singleton.1 hw]
      exact nameIn_keyword hclosing (by simp)
    · cases hw
  · exact htype
  · split at hw
    · rw [List.mem_singleton.1 hw]
      exact nameIn_keyword hclosing (by simp)
    · cases hw
  · exact h.name
  · cases hw

/-- A function whose header is written as names. -/
structure Headed (f : Function) : Prop where
  names : Nominal "endfunction".toList f.header.text
  solid : Layout.Solid f.params

theorem headed_of_listed {f : Function} (h : f.Enclosed) (hlisted : Naming.Listed f) :
    Headed f := by
  obtain ⟨qs, hqs, hnames⟩ := h.params
  obtain ⟨qs', hqs', hparams⟩ := hlisted
  obtain rfl := Option.some.inj (hqs.symm.trans hqs')
  have hclosing : "endfunction".toList ∈ [] :: closingWords := by decide
  constructor
  · refine nominal_header hclosing h.name ?_ h.result
    show Nominal _ f.params
    rw [hparams]
    exact nominal_renderAll hclosing hnames
  · rw [hparams]
    exact Parameter.solid_renderAll fun q hq => ⟨(hnames q hq).1.ident, (hnames q hq).2.ident⟩

end Names

/-! ### Blocks -/

/-- A text that is read as one closed block, whatever follows it. -/
structure ReadAs (t : Text) (b : ClosedBlock) : Prop where
  proper : b.Proper
  lexemes : ∀ tail, lexemes (t ++ tail) = b.lexemes ++ lexemes tail

namespace ReadAs

variable {α : Type} {text : α → Text} {xs : List α} {bs : List ClosedBlock}

theorem exists_all {S : α → ClosedBlock → Prop} (h : ∀ x ∈ xs, ∃ b, ReadAs (text x) b ∧ S x b) :
    ∃ bs, List.Forall₂ (fun x b => ReadAs (text x) b) xs bs ∧ List.Forall₂ S xs bs := by
  induction xs with
  | nil => exact ⟨[], .nil, .nil⟩
  | cons x rest ih =>
    rw [List.forall_mem_cons] at h
    obtain ⟨b, hread, hb⟩ := h.1
    obtain ⟨bs, hreads, hbs⟩ := ih h.2
    exact ⟨b :: bs, .cons hread hreads, .cons hb hbs⟩

theorem proper_all (h : List.Forall₂ (fun x b => ReadAs (text x) b) xs bs) :
    ∀ b ∈ bs, b.Proper := by
  intro b hb
  obtain ⟨x, -, hread⟩ := exists_of_mem_right h hb
  exact hread.proper

theorem lexemes_all (h : List.Forall₂ (fun x b => ReadAs (text x) b) xs bs) (tail : Text) :
    Source.lexemes (xs.flatMap text ++ tail) = bs.flatMap ClosedBlock.lexemes ++
      Source.lexemes tail := by
  induction h with
  | nil => rfl
  | cons hfirst _ ih =>
    rw [List.flatMap_cons, List.append_assoc, hfirst.lexemes, ih, List.flatMap_cons,
      List.append_assoc]

end ReadAs

/-- The end of a line is read as it stands. -/
theorem lexemes_keyword {w : Text} (hne : w ≠ []) (hw : ∀ c ∈ w, isWordChar c = true)
    (tail : Text) :
    lexemes (w ++ '\n' :: tail) = .word w :: .char '\n' :: lexemes tail := by
  rw [Source.lexemes_word hne hw (Text.startsNoWord_of_isOtherChar (by decide) tail),
    Source.lexemes_newline]

/-- The lexemes inside a block, line by line. -/
def InnerLines (closing : Text) (body : List Lexeme) : Prop :=
  ∀ l ∈ body, l ≠ .word closing ∧ l.openPart? = none

namespace InnerLines

variable {closing : Text} {ls body : List Lexeme}

theorem of_inner (h : ∀ l ∈ ls, Inner closing l) : InnerLines closing ls :=
  fun l hl => ⟨(h l hl).ne_closing.1, (h l hl).openPart⟩

theorem append (h : InnerLines closing ls) (hbody : InnerLines closing body) :
    InnerLines closing (ls ++ body) :=
  List.forall_mem_append.2 ⟨h, hbody⟩

theorem newline (hbody : InnerLines closing body) : InnerLines closing (.char '\n' :: body) :=
  List.forall_mem_cons.2 ⟨⟨nofun, rfl⟩, hbody⟩

theorem proper {kind : Source.BlockKind} (hclosing : kind.closing = .word closing)
    (h : InnerLines closing body) :
    ClosedBlock.Proper ⟨kind, body⟩ :=
  ⟨fun hmem => (h _ hmem).1 hclosing, fun l hl => (h l hl).2⟩

end InnerLines

section Blocks

variable {p : Program}

/-- A line of names is read word by word, from its opening word on. -/
theorem lexemes_opening {closing keyword t : Text} (hkeyword : NameIn closing keyword)
    (ht : Nominal closing t) (ls : List Text) (tail : Text) :
    lexemes (p.writtenLines ((keyword ++ ' ' :: t) :: ls) ++ tail) =
      .word keyword ::
      (heldLexemes {} (' ' :: t) ++ .char '\n' :: lexemes (p.writtenLines ls ++ tail)) := by
  have hspaced : Nominal closing (' ' :: t) := .append_cons (.inl rfl) (.nil closing) ht
  have hline : Nominal closing (keyword ++ ' ' :: t) :=
    .append_cons (.inl rfl) (.of_name hkeyword) ht
  have hnext : ∀ u, StartsNoWord ('\n' :: u) :=
    fun u => Text.startsNoWord_of_isOtherChar (by decide) u
  have hspace : ∀ u, StartsNoWord (' ' :: u) :=
    fun u => Text.startsNoWord_of_isOtherChar (by decide) u
  rw [Program.writtenLines_nominal hline
    (List.append_ne_nil_of_right_ne_nil _ (List.cons_ne_nil _ _)), List.append_assoc,
    List.append_assoc, List.cons_append, List.cons_append,
    Source.lexemes_word (Text.ne_nil_of_isIdent hkeyword.ident)
      (Text.isWordChar_of_isIdent hkeyword.ident) (hspace _),
    ← List.cons_append, hspaced.lexemes_append (hnext _), Source.lexemes_newline]

/-- A block that leaves a native. -/
structure NativeBlock (n : Native) (b : ClosedBlock) : Prop where
  kind : b.kind = .native
  text : ∀ lits, (collectBody lits b.body).1 = n.inner

/-- A native is read as a block. -/
theorem exists_readAs_native {n : Native} (h : n.Legible) :
    ∃ b, ReadAs (p.writtenLines [n.render]) b ∧ NativeBlock n b := by
  have hnames := nominal_native h
  have hspaced : Nominal [] n.inner := .append_cons (.inl rfl) (.nil []) hnames
  refine ⟨⟨.native, heldLexemes {} n.inner⟩, ?_, rfl, fun lits => by rw [hspaced.collectBody_eq]⟩
  refine ⟨⟨fun hmem => (hspaced.inner _ hmem).ne_closing.2 rfl,
    fun l hl => (hspaced.inner l hl).openPart⟩, fun tail => ?_⟩
  have hkeyword : NameIn [] "native".toList := nameIn_keyword List.mem_cons_self (by simp)
  rw [Native.render_eq, Native.inner, lexemes_opening hkeyword hnames, Program.writtenLines_nil,
    List.nil_append, ClosedBlock.lexemes_native, List.cons_append, List.append_assoc,
    List.singleton_append]

/-- A table grows by the literals of a body. -/
theorem prefix_collectBody (lits : Literals) (body : List Lexeme) :
    lits.texts <+: (collectBody lits body).2.texts := by
  rw [Source.texts_collectBody_lexemes]
  exact List.prefix_append ..

/-- What a line and the lines after it leave. -/
theorem collectBody_line (lits : Literals) (ls body : List Lexeme) :
    collectBody lits (ls ++ .char '\n' :: body) =
      ((collectBody lits ls).1 ++ '\n' :: (collectBody (collectBody lits ls).2 body).1,
        (collectBody (collectBody lits ls).2 body).2) := by
  rw [Source.collectBody_append, Source.collectBody_cons]
  rfl

/-- The lines of a body are read one by one. -/
theorem exists_innerLines {closing : Text} (hclosing : closing ∈ closingWords)
    (hlimit : p.literals.size ≤ indexLimit) (hclosed : ∀ raw ∈ p.literals.texts, ClosedLiteral raw)
    {ls : List Text} (hsealed : ∀ l ∈ ls, Sealed p.literals.size l)
    (h : ∀ l ∈ ls, Contained closing l ∧ '\n' ∉ l) :
    ∃ body, InnerLines closing body ∧
      (∀ tail, lexemes (p.writtenLines ls ++ tail) = body ++ lexemes tail) ∧
      ∀ lits all, (collectBody lits body).2.texts <+: all.texts → ∃ lines,
        List.Forall₂ (Reread p.literals all) (ls.filter (shortenNumerals · ≠ [])) lines ∧
          (collectBody lits body).1 = ended lines := by
  induction ls with
  | nil => exact ⟨[], nofun, fun tail => rfl, fun lits all _ => ⟨[], .nil, rfl⟩⟩
  | cons l rest ih =>
    rw [List.forall_mem_cons] at hsealed h
    obtain ⟨body, hbody, hread, hleaves⟩ := ih hsealed.2 h.2
    by_cases hempty : shortenNumerals l = []
    · rw [List.filter_cons_of_neg (by simpa using hempty)]
      exact ⟨body, hbody, fun tail => by rw [Program.writtenLines_empty hempty, hread], hleaves⟩
    · obtain ⟨ls, hls, hline, hon⟩ :=
        Output.readsOn_line hlimit hclosed hclosing hsealed.1 h.1.1 h.1.2
      refine ⟨ls ++ .char '\n' :: body, (InnerLines.of_inner hls).append hbody.newline,
        fun tail => ?_, fun lits all hall => ?_⟩
      · rw [Program.writtenLines_cons hempty, List.append_assoc, List.cons_append, Program.spelled,
          hline, hread, List.append_assoc, List.cons_append]
      · rw [collectBody_line] at hall ⊢
        obtain ⟨lines, hlines, htext⟩ := hleaves _ all hall
        have hfirst := hon lits all ((prefix_collectBody _ body).trans hall)
        rw [List.filter_cons_of_pos (by simpa using hempty), htext]
        exact ⟨_ :: lines, .cons hfirst hlines, (Text.ended_cons ..).symm⟩

/-- The last line of a block is read as the word that closes it. -/
theorem lexemes_closing {closing : Text} (hclosing : closing ∈ closingWords) (tail : Text) :
    lexemes (p.writtenLines [closing] ++ tail) = .word closing :: .char '\n' :: lexemes tail := by
  have hall : ∀ w ∈ closingWords, Text.isIdent w = true := by decide
  have hident := hall closing hclosing
  have hne := Text.ne_nil_of_isIdent hident
  have hnames : Nominal [] closing := .of_name ⟨hident, hne⟩
  rw [Program.writtenLines_nominal hnames hne, Program.writtenLines_nil, List.append_assoc]
  exact lexemes_keyword hne (Text.isWordChar_of_isIdent hident) tail

/-- A block that leaves the header of a function on its first line, and the lines of its body as
they are read again after it. -/
structure FunctionBlock (ls : Literals) (f : Function) (b : ClosedBlock) : Prop where
  kind : b.kind = .function
  text : ∀ lits all, (collectBody lits b.body).2.texts <+: all.texts → ∃ lines,
    List.Forall₂ (Reread ls all) f.writtenLines lines ∧
      (collectBody lits b.body).1 = ' ' :: f.header.text ++ '\n' :: ended lines

/-- A function is read as a block that starts with its header. -/
theorem exists_readAs_function (hlimit : p.literals.size ≤ indexLimit)
    (hclosed : ∀ raw ∈ p.literals.texts, ClosedLiteral raw) {f : Function} (hf : f.Enclosed)
    (hheaded : Headed f) (hsealed : f.Sealed p.literals.size) :
    ∃ b, ReadAs (p.writtenLines f.blockLines) b ∧ FunctionBlock p.literals f b := by
  have hclosing : "endfunction".toList ∈ closingWords := by decide
  have hcontained : ∀ l ∈ Text.pieces '\n' f.body, Contained "endfunction".toList l ∧ '\n' ∉ l := by
    intro l hl
    have hbody := hsealed.body
    have hwhole := hf.body
    rw [← Text.joined_pieces '\n' f.body] at hbody hwhole
    exact ⟨hwhole.of_joined hbody l hl, Text.not_mem_of_mem_pieces hl⟩
  have hspaced : Nominal "endfunction".toList (' ' :: f.header.text) :=
    .append_cons (.inl rfl) (.nil _) hheaded.names
  obtain ⟨body, hbody, hread, hleaves⟩ :=
    exists_innerLines hclosing hlimit hclosed (hsealed.body.pieces (by decide)) hcontained
  refine ⟨⟨.function, heldLexemes {} (' ' :: f.header.text) ++ .char '\n' :: body⟩,
    ⟨?_, fun tail => ?_⟩, rfl, fun lits all hall => ?_⟩
  · exact ((InnerLines.of_inner hspaced.inner).append hbody.newline).proper rfl
  · have hkeyword : NameIn "endfunction".toList "function".toList :=
      nameIn_keyword (by decide) (by simp)
    have hlast := lexemes_closing (p := p) hclosing tail
    have hbetween := hread (p.writtenLines ["endfunction".toList] ++ tail)
    have hfirst := lexemes_opening (p := p) hkeyword hheaded.names
      (Text.pieces '\n' f.body ++ ["endfunction".toList]) tail
    rw [Program.writtenLines_append, List.append_assoc, hbetween, hlast] at hfirst
    refine hfirst.trans ?_
    rw [ClosedBlock.lexemes_function]
    simp only [List.cons_append, List.append_assoc, List.nil_append]
  · rw [collectBody_line, hspaced.collectBody_eq] at hall ⊢
    obtain ⟨lines, hlines, htext⟩ := hleaves lits all hall
    exact ⟨lines, hlines, congrArg (fun rest => ' ' :: f.header.text ++ '\n' :: rest) htext⟩

/-- What is read where a value was written. An empty value is left out. -/
inductive ValueRead (ls ls' : Literals) : Option Text → Option Text → Prop
  | unstated {value : Option Text} (h : value.getD [] = []) : ValueRead ls ls' value none
  | stated {v x : Text} (h : Reread ls ls' v x) : ValueRead ls ls' (some v) (some x)

/-- A line on which a declaration is read, its value as it is read again. -/
def OnLine (ls ls' : Literals) (d : Declaration) (line : Text) : Prop :=
  '\n' ∉ line ∧ ∃ v, ValueRead ls ls' d.value v ∧ line = d.lineWith v

/-- A declaration is read to the end of its line. -/
theorem exists_declarationLine (hlimit : p.literals.size ≤ indexLimit)
    (hclosed : ∀ raw ∈ p.literals.texts, ClosedLiteral raw) {d : Declaration} (hd : d.Enclosed)
    (hsealed : d.Sealed p.literals.size) :
    shortenNumerals d.render ≠ [] ∧ ∃ ls, (∀ l ∈ ls, Inner "endglobals".toList l) ∧
      (∀ tail, lexemes (p.spelled d.render ++ '\n' :: tail) = ls ++ .char '\n' :: lexemes tail) ∧
      ∀ lits all, (collectBody lits ls).2.texts <+: all.texts →
        OnLine p.literals all d (collectBody lits ls).1 := by
  have hnames := nominal_words hd
  have hidents : ∀ w ∈ d.words, Text.isIdent w = true :=
    Declaration.forall_words (Syntax.isIdent_of_isDatatype hd.type) hd.name.ident
  have hne : Text.joined ' ' d.words ≠ [] :=
    (Layout.Solid.joined Layout.Solid.append_space d.words_ne_nil fun w hw =>
      Text.solid_of_isIdent (hidents w hw)).ne_nil
  obtain ⟨hunstated, hnone⟩ | ⟨v, hv, hrender⟩ :
      (d.value.getD [] = [] ∧ d.render = Text.joined ' ' d.words) ∨
        ∃ v, d.value = some v ∧ d.render = Text.joined ' ' d.words ++ '=' :: v := by
    rw [Declaration.render_eq, Declaration.assigned]
    cases hvalue : d.value with
    | none => exact .inl ⟨rfl, List.append_nil _⟩
    | some v =>
      cases v with
      | nil => exact .inl ⟨rfl, List.append_nil _⟩
      | cons c rest => exact .inr ⟨_, rfl, rfl⟩
  · have hline : Nominal "endglobals".toList d.render := hnone ▸ hnames
    have hshort : shortenNumerals d.render = d.render := hline.shortenFrom_eq none
    refine ⟨by rwa [hshort, hnone], heldLexemes {} d.render, hline.inner, fun tail => ?_,
      fun lits all _ => ?_⟩
    · rw [Program.spelled_nominal hline,
        hline.lexemes_append (Text.startsNoWord_of_isOtherChar (by decide) tail),
        Source.lexemes_newline]
    · rw [hline.collectBody_eq]
      exact ⟨hline.newline_not_mem, none, .unstated hunstated, by
        rw [hnone, Declaration.lineWith, Option.map_none, Option.getD_none, List.append_nil]⟩
  · have hvalue := hd.value v hv
    have hequals : Output.Apart ('=' :: v) ('=' :: shortenNumerals v) :=
      Output.apart_cons (by decide) (by decide) (by decide) v
    have hshort : shortenNumerals d.render =
        Text.joined ' ' d.words ++ '=' :: shortenNumerals v := by
      rw [hrender]
      exact Output.shortenFrom_joined d.words_ne_nil hidents hequals.alone
        (Text.startsNoWord_of_isOtherChar (by decide) v) none
    have hspelled : p.spelled d.render = Text.joined ' ' d.words ++ '=' :: p.spelled v := by
      rw [Program.spelled, hshort, hnames.sealed.restore_append,
        Literals.restore_of_not_mem hnames.mark_not_mem, Literals.restore_cons (by decide)]
      rfl
    obtain ⟨ls, hls, hread, hleaves⟩ := Output.readsOn_line hlimit hclosed (by decide)
      (hsealed.value v hv) hvalue.contained hvalue.newline
    have hinner : ∀ l ∈ heldLexemes {} (Text.joined ' ' d.words) ++ .char '=' :: ls,
        Inner "endglobals".toList l :=
      List.forall_mem_append.2 ⟨hnames.inner, List.forall_mem_cons.2 ⟨.char (by decide), hls⟩⟩
    refine ⟨by simp [hshort], _, hinner, fun tail => ?_, fun lits all hall => ?_⟩
    · rw [hspelled, List.append_assoc, List.cons_append,
        hnames.lexemes_append (Text.startsNoWord_of_isOtherChar (by decide) _),
        Source.lexemes_other (by decide) (by decide) (by simp) (by simp), Program.spelled, hread,
        List.append_assoc, List.cons_append]
    · refine ⟨Inner.newline_not_mem_collectBody hinner lits, ?_⟩
      rw [Source.collectBody_append, hnames.collectBody_eq] at hall ⊢
      exact ⟨some _, hv ▸ .stated (hleaves lits all hall), rfl⟩

/-- The declarations are read line by line. -/
theorem exists_declarationLines (hlimit : p.literals.size ≤ indexLimit)
    (hclosed : ∀ raw ∈ p.literals.texts, ClosedLiteral raw) {ds : List Declaration}
    (hds : ∀ d ∈ ds, d.Enclosed ∧ d.Sealed p.literals.size) :
    ∃ body, InnerLines "endglobals".toList body ∧
      (∀ tail, lexemes (p.writtenLines (ds.map Declaration.render) ++ tail) =
        body ++ lexemes tail) ∧
      ∀ lits all, (collectBody lits body).2.texts <+: all.texts → ∃ lines,
        List.Forall₂ (OnLine p.literals all) ds lines ∧
        (collectBody lits body).1 = ended lines := by
  induction ds with
  | nil => exact ⟨[], nofun, fun tail => rfl, fun lits all _ => ⟨[], .nil, rfl⟩⟩
  | cons d rest ih =>
    rw [List.forall_mem_cons] at hds
    obtain ⟨body, hbody, hread, hlines⟩ := ih hds.2
    obtain ⟨hne, ls, hls, hline, hon⟩ := exists_declarationLine hlimit hclosed hds.1.1 hds.1.2
    refine ⟨ls ++ .char '\n' :: body, (InnerLines.of_inner hls).append hbody.newline,
      fun tail => ?_, fun lits all hall => ?_⟩
    · rw [List.map_cons, Program.writtenLines_cons hne, List.append_assoc, List.cons_append, hline,
        hread, List.append_assoc, List.cons_append]
    · rw [collectBody_line] at hall ⊢
      obtain ⟨lines, hmore, htext⟩ := hlines _ all hall
      have hfirst := hon lits all ((prefix_collectBody _ body).trans hall)
      rw [htext]
      exact ⟨_ :: lines, .cons hfirst hmore, (Text.ended_cons ..).symm⟩

/-- A block that leaves some declarations, each on a line of its own. -/
structure DeclarationsBlock (ls : Literals) (ds : List Declaration) (b : ClosedBlock) : Prop where
  kind : b.kind = .globals
  text : ∀ lits all, (collectBody lits b.body).2.texts <+: all.texts → ∃ lines,
    List.Forall₂ (OnLine ls all) ds lines ∧ (collectBody lits b.body).1 = ended ([] :: lines)

/-- The declarations are read as a block of one line each. -/
theorem exists_readAs_globals (hlimit : p.literals.size ≤ indexLimit)
    (hclosed : ∀ raw ∈ p.literals.texts, ClosedLiteral raw)
    (hds : ∀ d ∈ p.declarations, d.Enclosed ∧ d.Sealed p.literals.size) :
    ∃ b, ReadAs (p.writtenLines (Declaration.blockLines p.declarations)) b ∧
      DeclarationsBlock p.literals p.declarations b := by
  obtain ⟨body, hbody, hread, hlines⟩ := exists_declarationLines hlimit hclosed hds
  refine ⟨⟨.globals, .char '\n' :: body⟩, ⟨hbody.newline.proper rfl, fun tail => ?_⟩, rfl,
    fun lits all hall => ?_⟩
  · have hkeyword : Nominal [] "globals".toList := .of_name ⟨by decide, by decide⟩
    have hclosing : "endglobals".toList ∈ closingWords := by decide
    have hlast := lexemes_closing (p := p) hclosing tail
    have hbetween := hread (p.writtenLines ["endglobals".toList] ++ tail)
    have hfirst := lexemes_keyword (w := "globals".toList) (by decide) (by decide)
      (p.writtenLines (p.declarations.map Declaration.render ++ ["endglobals".toList]) ++ tail)
    rw [Program.writtenLines_append, List.append_assoc, hbetween, hlast] at hfirst
    rw [Declaration.blockLines, Program.writtenLines_nominal hkeyword (by decide),
      Program.writtenLines_append, List.append_assoc, List.cons_append, List.append_assoc]
    refine hfirst.trans ?_
    rw [ClosedBlock.lexemes_globals]
    simp only [List.cons_append, List.append_assoc, List.nil_append]
  · have hline := collectBody_line lits [] body
    rw [List.nil_append] at hline
    rw [hline] at hall ⊢
    obtain ⟨lines, hmore, htext⟩ := hlines lits all hall
    exact ⟨lines, hmore, congrArg ('\n' :: ·) htext⟩

/-- The lines of a program that stays inside its blocks are lines. -/
theorem newline_not_mem_lines_of_enclosed (h : p.Enclosed) (hheaded : ∀ f ∈ p.functions, Headed f) :
    ∀ l ∈ p.lines, '\n' ∉ l := by
  refine forall_lines (by decide) (fun d hd => ?_) (fun n hn => ?_) (fun f hf => ?_) fun _ _ _ hl =>
    Text.not_mem_of_mem_pieces hl
  · have henclosed := h.declarations d hd
    rw [Declaration.render_eq, List.mem_append, not_or]
    refine ⟨(nominal_words henclosed).newline_not_mem, ?_⟩
    rw [Declaration.assigned]
    split
    · rename_i c rest hvalue
      rw [List.mem_cons, not_or]
      exact ⟨by decide, (henclosed.value _ hvalue).newline⟩
    · exact List.not_mem_nil
  · have hkeyword : '\n' ∉ "native".toList := by decide
    rw [Native.render_eq, Native.inner, List.mem_append, List.mem_cons, not_or, not_or]
    exact ⟨hkeyword, by decide, (nominal_native (h.natives n hn)).newline_not_mem⟩
  · have hkeyword : '\n' ∉ "function".toList := by decide
    unfold Function.opening
    rw [List.mem_append, List.mem_cons, not_or, not_or]
    exact ⟨hkeyword, by decide, (hheaded f hf).names.newline_not_mem⟩

/-- A written text is read as closed blocks, one for the declarations if there are any, one for
each native and one for each function. -/
theorem exists_blocks (hlimit : p.literals.size ≤ indexLimit) (h : p.Enclosed)
    (hheaded : ∀ f ∈ p.functions, Headed f) (hsealed : p.Sealed) :
    ∃ gs ns fs : List ClosedBlock,
      lexemes (emit p) = (gs ++ (ns ++ fs)).flatMap ClosedBlock.lexemes ∧
        (∀ b ∈ gs ++ (ns ++ fs), b.Proper) ∧
        List.Forall₂ (DeclarationsBlock p.literals) p.declarationBlocks gs ∧
        List.Forall₂ NativeBlock p.natives ns ∧
        List.Forall₂ (FunctionBlock p.literals) p.functions fs := by
  have hdeclarations : ∀ ds ∈ p.declarationBlocks, ∃ b,
      ReadAs (p.writtenLines (Declaration.blockLines ds)) b ∧
        DeclarationsBlock p.literals ds b := by
    intro ds hds
    rw [Program.declarationBlocks] at hds
    split at hds
    · cases hds
    · rw [List.mem_singleton.1 hds]
      exact exists_readAs_globals hlimit h.literals fun d hd =>
        ⟨h.declarations d hd, hsealed.declarations d hd⟩
  have hnatives : ∀ n ∈ p.natives, ∃ b, ReadAs (p.writtenLines [n.render]) b ∧ NativeBlock n b :=
    fun n hn => exists_readAs_native (h.natives n hn)
  have hfunctions : ∀ f ∈ p.functions, ∃ b,
      ReadAs (p.writtenLines f.blockLines) b ∧ FunctionBlock p.literals f b :=
    fun f hf => exists_readAs_function hlimit h.literals (h.functions f hf) (hheaded f hf)
      (hsealed.functions f hf)
  obtain ⟨gs, hgsRead, hgs⟩ := ReadAs.exists_all hdeclarations
  obtain ⟨ns, hnsRead, hns⟩ := ReadAs.exists_all hnatives
  obtain ⟨fs, hfsRead, hfs⟩ := ReadAs.exists_all hfunctions
  refine ⟨gs, ns, fs, ?_, ?_, hgs, hns, hfs⟩
  · have hlast := ReadAs.lexemes_all hfsRead []
    rw [List.append_nil, Source.lexemes, List.append_nil] at hlast
    rw [emit_eq_writtenLines hsealed (newline_not_mem_lines_of_enclosed h hheaded),
      Program.lines_eq, Program.writtenLines_append, Program.writtenLines_append,
      Program.writtenLines_flatMap, Program.writtenLines_flatMap, Program.writtenLines_flatMap,
      ReadAs.lexemes_all hgsRead, ReadAs.lexemes_all hnsRead, hlast, List.flatMap_append,
      List.flatMap_append]
  · exact List.forall_mem_append.2 ⟨ReadAs.proper_all hgsRead,
      List.forall_mem_append.2 ⟨ReadAs.proper_all hnsRead, ReadAs.proper_all hfsRead⟩⟩

end Blocks

end ScriptMinifier
