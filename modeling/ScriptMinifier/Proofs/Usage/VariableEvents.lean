import ScriptMinifier.Proofs.Naming.LiteralNames
import ScriptMinifier.Proofs.Output.Writing
import ScriptMinifier.Proofs.Usage.Declared

/-! Variable events through a run.

A variable event names its variable in a string. Where the string is the second argument of the
call and the first argument holds no literal, it is the literal that counting, pruning and
renaming look at. So the variable is used, stays declared unless it is folded, and its new name
stands in the string (`variableEvent_follows`). -/
namespace ScriptMinifier

open Literal (indexLimit)
open Naming
  (Pool image newNames renamed renameLiterals namingLiterals replaceFirstWord renameLocals)
open Output (WholeLines emit shortenNumerals hexValue?)
open Syntax (Declaration Function localName?)
open Text (mark isIdent Smooth segments)
open Usage (Idiom literalName?)

/-! ### The literal of a name -/

/-- The string that holds a name and nothing else. -/
def nameLiteral (name : Text) : Text := '"' :: (name ++ ['"'])

section

variable {v : Text}

theorem segments_nameLiteral (hv : isIdent v = true) :
    segments (nameLiteral v) = [.other ['"'], .word v, .other ['"']] := by
  have hquote : segments ['"'] = [.other ['"']] := by decide +kernel
  have hhead : ∀ d ∈ (v ++ ['"']).head?, Text.isOtherChar d = false := by
    obtain ⟨c, rest, rfl⟩ := List.exists_cons_of_ne_nil (Text.ne_nil_of_isIdent hv)
    intro d hd
    rw [← Option.some.inj hd]
    simp [Text.isOtherChar, Text.isWordChar_of_isIdent hv c List.mem_cons_self]
  rw [nameLiteral, Output.segments_other_single (by decide) hhead,
    Text.segments_word (Text.ne_nil_of_isIdent hv) (Text.isWordChar_of_isIdent hv)
      (Text.startsNoWord_of_isOtherChar (by decide) _), hquote]

theorem literalName?_nameLiteral (hv : isIdent v = true) :
    literalName? (nameLiteral v) = some v := by
  rw [literalName?, Text.words, segments_nameLiteral hv]
  rfl

theorem replaceFirstWord_nameLiteral (hv : isIdent v = true) (names : Text.Renaming) :
    replaceFirstWord names (segments (nameLiteral v)) = nameLiteral (renamed names v) := by
  rw [segments_nameLiteral hv]
  rfl

end

namespace Naming

variable {n : Nat}

/-- A literal that names a declaration names it by its new name. -/
theorem get?_renameGlobals {p : Program} {pool : Pool} {v new : Text} (hn : n ∈ namingLiterals p)
    (hlit : p.literals.get? n = some (nameLiteral v)) (hv : isIdent v = true)
    (hnew : (newNames p pool).find? v = some new) :
    (renameGlobals p pool).program.literals.get? n = some (nameLiteral new) := by
  have hrenamed : renamed (newNames p pool) v = new := by rw [renamed, hnew]; rfl
  rw [get?_renameGlobals_of_mem hn hlit, replaceFirstWord_nameLiteral hv, hrenamed]

/-- A declared name is dealt a new one. -/
theorem exists_newName {p : Program} {v : Text} (h : v ∈ p.declarationNames) (pool : Pool) :
    ∃ new, (newNames p pool).find? v = some new :=
  Option.ne_none_iff_exists'.1 fun hnone => find?_newNames_eq_none hnone
    (mem_globalOrder.2 (.inl h))

/-- Renaming locals replaces names that the function binds, in the lines that are kept. -/
theorem exists_localNames (f : Function) :
    ∃ g : Text → Option Text, GivesIdents g ∧ (∀ w, g w ≠ none → w ∈ f.scopedNames) ∧
    (renameLocals f).function.body = Text.replaceWords g (keptBody f) := by
  unfold keptBody renameLocals
  split
  · exact ⟨fun _ => none, nofun, fun _ h => absurd rfl h, (Text.replaceWords_none f.body).symm⟩
  · rename_i params hparams
    refine ⟨_, givesIdents_deal _ _, fun w hw => ?_, rfl⟩
    obtain ⟨new, hfind⟩ := Option.ne_none_iff_exists'.1 hw
    have hitem := List.mem_map_of_mem (f := Prod.fst) (Text.Dictionary.mem_of_find?_ofPairs hfind)
    rw [Pool.map_fst_deal, localOrder, mem_byCount, List.mem_map] at hitem
    obtain ⟨pair, hpair, rfl⟩ := hitem
    obtain ⟨name, hname, rfl⟩ := List.mem_map.1 hpair
    have hnames : f.paramNames = params.map Syntax.Parameter.name := by
      rw [Function.paramNames, hparams]; rfl
    rcases List.mem_append.1 (List.mem_filter.1 hname).1 with hparam | hlocal
    · exact List.mem_append_left _ (hnames ▸ hparam)
    · exact List.mem_append_right _ (Text.mem_distinct.1 (List.mem_filter.1 hlocal).1)

end Naming

/-! ### Events -/

/-- A variable event in a function: on a line that stays when locals are dropped, a call whose
second argument is a literal and whose first holds none. -/
inductive EventIn (f : Function) (callee : Text) (n : Nat) : Prop
  | intro {line first : Text} (mem : line ∈ Text.pieces '\n' f.body)
      (call : LiteralCall callee first n line)
      (plain : mark ∉ first) (stays : ∀ x ∈ localName? line, x ∉ (renameLocals f).dropped)

/-- A call in a body, whose second argument is a literal. -/
def CallIn (body callee first : Text) (n : Nat) : Prop :=
  ∃ line ∈ Text.pieces '\n' body, LiteralCall callee first n line

theorem CallIn.replaceWords {g : Text → Option Text} (hg : Smooth g) {body callee first : Text}
    {n m : Nat}
    (hsealed : Sealed m body) (hcallee : isIdent callee = true) (h : CallIn body callee first n) :
    CallIn (Text.replaceWords g body) ((g callee).getD callee) (Text.replaceWords g first) n := by
  obtain ⟨line, hline, hcall⟩ := h
  refine ⟨Text.replaceWords g line, ?_, hcall.replaceWords hg (Text.ne_nil_of_isIdent hcallee)
    (Text.isWordChar_of_isIdent hcallee) (hsealed.pieces (by decide) line hline)⟩
  rw [hsealed.pieces_replaceWords (by decide) (by decide) (by decide) hg]
  exact List.mem_map_of_mem hline

namespace EventIn

variable {f f' : Function} {callee : Text} {n m : Nat}

theorem mem_ids (h : EventIn f Idiom.variableEvent.callee n) (hsealed : Sealed m f.body)
    (hn : n < indexLimit) :
    n ∈ Idiom.variableEvent.ids f.body := by
  obtain ⟨hline, hcall, hplain, -⟩ := h
  exact hcall.mem_ids hsealed hn hline hplain

/-- An event stays one when words are replaced that the function does not bind. -/
theorem rewritten {g : Text → Option Text} (hg : Naming.Rewritten g f f')
    (hsealed : Sealed m f.body)
    (hcallee : isIdent callee = true) (h : EventIn f callee n) :
    EventIn f' ((g callee).getD callee) n := by
  obtain @⟨line, first, hline, hcall, hplain, hstays⟩ := h
  have hcall' := hcall.replaceWords hg.foreign.smooth (Text.ne_nil_of_isIdent hcallee)
    (Text.isWordChar_of_isIdent hcallee) (hsealed.pieces (by decide) line hline)
  have hline' : Text.replaceWords g line ∈ Text.pieces '\n' f'.body := by
    rw [hg.pieces_body hsealed]
    exact List.mem_map_of_mem hline
  refine .intro hline' hcall' (Sealed.not_mem_replaceWords hg.foreign.smooth (by decide) hplain)
    fun x hx hdropped => ?_
  obtain ⟨hlocal, hdropped'⟩ := hg.dropped hsealed hline hx hdropped
  exact hstays x hlocal hdropped'

/-- Renaming locals keeps the line of an event. -/
theorem renameLocals (hsealed : Sealed m f.body) (hcallee : isIdent callee = true)
    (h : EventIn f callee n) :
    ∃ callee' first', isIdent callee' = true ∧ (callee ∉ f.scopedNames → callee' = callee) ∧
      CallIn (renameLocals f).function.body callee' first' n := by
  obtain @⟨line, first, hline, hcall, -, hstays⟩ := h
  obtain ⟨g, hg, hbound, hbody⟩ := Naming.exists_localNames f
  have hkept : CallIn (keptBody f) callee first n := by
    obtain ⟨line', hline', heq⟩ := Naming.exists_mem_pieces_dropLocals hline hcall.ne_nil hstays
    refine ⟨line', hline', ?_⟩
    rcases heq with rfl | rfl
    · exact hcall
    · exact hcall.dropReturn (hsealed.pieces (by decide) line hline)
  refine ⟨(g callee).getD callee, Text.replaceWords g first, hg.getD hcallee, fun hfree => ?_, ?_⟩
  · rw [not_not.1 fun hne => hfree (hbound callee hne)]
    rfl
  · rw [hbody]
    exact hkept.replaceWords hg.smooth (Naming.sealed_dropLocals hsealed _) hcallee

end EventIn

/-! ### Truth values -/

/-- Extracting truth values keeps the calls of a function. -/
theorem exists_callIn_extractWords {words : List Text} (hwords : ∀ word ∈ words, mark ∉ word)
    {p : Program} (hp : p.Sealed)
    (pool : Pool) {f : Function} {k n : Nat} {callee first : Text} (hf : p.functions[k]? = some f)
    (hcallee : isIdent callee = true) (h : CallIn f.body callee first n) :
    ∃ f' callee' first', (Output.extractWords p pool words).program.functions[k]? = some f' ∧
    isIdent callee' = true ∧
      (callee ∉ words → callee' = callee) ∧ CallIn f'.body callee' first' n := by
  induction words generalizing p pool f callee first with
  | nil => exact ⟨f, callee, first, hf, hcallee, fun _ => rfl, h⟩
  | cons word rest ih =>
    rw [List.forall_mem_cons] at hwords
    rw [Output.extractWords]
    simp only
    split
    · obtain ⟨f', callee', first', hf', hident, hsame, hcall⟩ := ih hwords.2 hp pool hf hcallee h
      exact ⟨f', callee', first', hf', hident, fun hfree => hsame fun hmem => hfree
        (List.mem_cons_of_mem _ hmem), hcall⟩
    · have hg : GivesIdents fun w => if w = word then some pool.draw.1 else none := by
        intro w r hr
        rw [← Option.some.inj (Option.ite_none_right_eq_some.1 hr).2]
        exact Pool.isIdent_of_mem_drawMany (n := 1) List.mem_cons_self
      have hsealed := hp.functions f (List.mem_of_getElem? hf)
      have hf' : (Output.replaceWord word pool.draw.1 p).functions[k]? = some { f with
          body :=
            Text.replaceWords (fun w => if w = word then some pool.draw.1 else none) f.body } := by
        rw [Output.replaceWord, List.getElem?_map, hf]
        rfl
      obtain ⟨f', callee', first', hmore, hident, hsame, hcall⟩ := ih hwords.2
        (Output.sealed_replaceWord hwords.1 (Output.mark_not_mem_draw pool) hp) pool.draw.2 hf'
          (hg.getD hcallee)
        (h.replaceWords hg.smooth hsealed.body hcallee)
      refine ⟨f', callee', first', hmore, hident, fun hfree => ?_, hcall⟩
      rw [List.mem_cons, not_or] at hfree
      have hkept : (if callee = word then some pool.draw.1 else none).getD callee = callee := by
        rw [if_neg hfree.1]; rfl
      rw [hkept] at hsame
      exact hsame hfree.2

/-! ### A run -/

namespace EventIn

variable {q : Program} {f : Function} {k n : Nat} {callee : Text}

/-- Folding and counting keep an event, unless its name is folded. -/
theorem counted (hq : q.Sealed) (hnamed : q.Named) (hf : q.functions[k]? = some f)
    (hcallee : isIdent callee = true)
    (hfolded : callee ∈ f.scopedNames ∨ callee ∉ Constant.foldedNames q) (h : EventIn f callee n) :
    ∃ f', (Usage.countDeclarationUses (Usage.countCalls (Constant.fold q))).functions[k]? =
      some f' ∧
      f'.scopedNames ⊆ f.scopedNames ∧ EventIn f' callee n := by
  have hfold :
      (Constant.fold q).functions[k]? = some (Constant.replaceIn (Constant.foldedValues q) f) := by
    rw [Constant.fold, List.getElem?_map, hf]
    rfl
  have hstays : visible (Constant.foldedValues q) f callee = none := by
    refine visible_eq_none
      (hfolded.imp_right fun hnot => Option.eq_none_iff_forall_ne_some.2 fun r hr => hnot ?_)
    exact List.mem_map_of_mem (f := Prod.fst) (Text.Dictionary.mem_of_find?_ofPairs hr)
  have hsealed := (hq.functions f (List.mem_of_getElem? hf)).body
  have hevent := h.rewritten (rewritten_folded hnamed f) hsealed hcallee
  rw [hstays, Option.getD_none] at hevent
  have hscope := (rewritten_folded hnamed f).scopedNames_subset hsealed
  have hsealed' := ((sealed_fold hq).functions _ (List.mem_of_getElem? hfold)).body
  generalize Constant.replaceIn (Constant.foldedValues q) f = f₁ at *
  obtain ⟨f', hf', hparams, hbody⟩ :
      ∃ f', (Usage.countCalls (Constant.fold q)).functions[k]? = some f' ∧
      f'.params = f₁.params ∧ f'.body = f₁.body := by
    rw [Usage.countCalls, List.getElem?_map, List.getElem?_zipIdx, hfold]
    exact ⟨_, rfl, rfl, rfl⟩
  have hcount := rewritten_none hparams hbody
  exact ⟨f', hf', List.Subset.trans (hcount.scopedNames_subset hsealed') hscope,
    hevent.rewritten hcount hsealed' hcallee⟩

/-- Renaming globals and then locals keeps the call of an event. -/
theorem localized (hq : q.Sealed) (hnamed : q.Named) (hf : q.functions[k]? = some f)
    (hcallee : isIdent callee = true) (h : EventIn f callee n) :
    ∃ f' callee' first',
      (Naming.renameAllLocals (Naming.renameGlobals q (Pool.new .globals)).program).functions[k]? =
        some f' ∧
      isIdent callee' = true ∧
      (callee ∉ q.declarationNames → callee ∉ q.functionNames → callee ∉ f.scopedNames →
        callee' = callee) ∧
      CallIn f'.body callee' first' n := by
  have hrename : (Naming.renameGlobals q (Pool.new .globals)).program.functions[k]? =
      some (Naming.renameFunction (newNames q (Pool.new .globals)) f) := by
    show (q.functions.map (Naming.renameFunction (newNames q (Pool.new .globals))))[k]? = _
    rw [List.getElem?_map, hf]
    rfl
  have hrewritten := rewritten_renamed hnamed f
  have hsealed := (hq.functions f (List.mem_of_getElem? hf)).body
  have hsealed' :=
    ((Naming.sealed_renameGlobals hq (Pool.new .globals)).functions _
      (List.mem_of_getElem? hrename)).body
  have hidents : GivesIdents (visible (newNames q (Pool.new .globals)) f) :=
    fun w r hr => givesIdents_deal _ _ w r (find?_of_visible hr)
  obtain ⟨callee', first', hident, hsame, hcall⟩ :=
    (h.rewritten hrewritten hsealed hcallee).renameLocals hsealed' (hidents.getD hcallee)
  refine ⟨_, callee', first', ?_, hident, fun hdeclared hfunction hscoped => ?_, hcall⟩
  · rw [Naming.renameAllLocals, List.getElem?_map, hrename]
    rfl
  · have hnone : visible (newNames q (Pool.new .globals)) f callee = none := by
      refine visible_eq_none (.inr (Option.eq_none_iff_forall_ne_some.2 fun r hr => ?_))
      exact (Naming.mem_names_of_find? hr).elim hdeclared hfunction
    rw [hnone, Option.getD_none] at hsame
    exact hsame fun hmem => hscoped (hrewritten.scopedNames_subset hsealed hmem)

end EventIn

/-! ### The text -/

/-- A text declares what a declaration does, on a line of its own. -/
def DeclaredIn (text : Text) (d : Declaration) : Prop :=
  ∃ above c below, WholeLines above ∧ (c = '=' ∨ c = '\n') ∧
    text = above ++ (Text.joined ' ' d.words ++ c :: below)

/-- A text as a program writes it. -/
def Program.spelled (q : Program) (t : Text) : Text := q.literals.restore (shortenNumerals t)

/-- A text has a call of `callee` with the first two arguments `first` and `second`. The callee
stands before them unless it may be read as a number. -/
def CalledIn (text callee first second : Text) : Prop :=
  ∃ above head c tail, WholeLines above ∧ (c = ',' ∨ c = ')') ∧
    text = above ++ (head ++ '(' :: (first ++ ',' :: (second ++ c :: tail))) ∧
    (hexValue? callee = none → ∃ u, head = u ++ callee)

/-- The literal of a call is written with it. -/
theorem CallIn.calledIn {q : Program} (hq : q.Sealed) {f : Function} (hf : f ∈ q.functions)
    {callee first raw : Text}
    {n : Nat} (hcallee : isIdent callee = true) (hn : n < indexLimit)
    (hraw : q.literals.get? n = some raw)
    (h : CallIn f.body callee first n) : CalledIn (emit q) callee (q.spelled first) raw := by
  obtain ⟨line, hline, hcall⟩ := h
  have hsealed := (hq.functions f hf).body.pieces (by decide) line hline
  obtain ⟨head, c, tail, hc, hrestore, hhead⟩ := hcall.exists_restore hsealed hn hraw
  have hne : shortenNumerals line ≠ [] := by
    intro hnil
    rw [hnil, Literals.restore_nil] at hrestore
    simp at hrestore
  obtain ⟨above, below, habove, hemit⟩ := Output.exists_emit_body hq hf hline hne
  refine ⟨above, head, c, tail ++ '\n' :: below, habove, hc, ?_, hhead hcallee⟩
  rw [hemit, hrestore, Program.spelled]
  simp only [List.append_assoc, List.cons_append]

/-- A declaration that a program has is in its text. -/
theorem Program.Declares.declaredIn {q : Program} (hq : q.Sealed) {d : Declaration} {name : Text}
    (htype : isIdent d.type = true) (hname : isIdent name = true) (h : q.Declares d name) :
    DeclaredIn (emit q) { d with name := name } := by
  obtain ⟨d', hd', heq⟩ := h
  have hwords : d'.words = ({ d with name := name } : Declaration).words := by
    rw [heq]
    rfl
  have hidents : ∀ w ∈ d'.words, isIdent w = true := by
    rw [hwords]
    exact Declaration.forall_words htype hname
  rw [DeclaredIn, ← hwords]
  exact Output.exists_emit_declaration hq hd' hidents

/-! ### Events that name a variable -/

/-- A call in a function whose second argument is the string of a declared name. -/
structure NamesVariable (p : Program) (f : Function) (line first : Text) (n : Nat) (v : Text) :
    Prop where
  mem : line ∈ Text.pieces '\n' f.body
  call : LiteralCall Idiom.variableEvent.callee first n line
  literal : p.literals.get? n = some (nameLiteral v)
  declared : v ∈ p.declarationNames

/-- A name that a program leaves to the host. -/
structure Undeclared (p : Program) (f : Function) (name : Text) : Prop where
  declarations : name ∉ p.declarationNames
  functions : name ∉ p.functionNames
  bound : name ∉ f.scopedNames

/-- The call follows the variable: the text declares the variable under a new name, and the call
has the string of that name for its second argument. -/
structure EventFollows (p : Program) (s : Stages) (f : Function) (k n : Nat) (v new text : Text) :
    Prop where
  renamed : (v, new) ∈ s.named.names
  declared : ∃ d ∈ p.declarations, d.name = v ∧ DeclaredIn text { d with name := new }
  literal : s.extracted.program.literals.get? n = some (nameLiteral new)
  called : ∃ f' callee first, s.extracted.program.functions[k]? = some f' ∧
    CallIn f'.body callee first n ∧
    CalledIn text callee (s.extracted.program.spelled first) (nameLiteral new) ∧
    (Undeclared p f Idiom.variableEvent.callee → callee = Idiom.variableEvent.callee)

section Run

variable {options : Options} {src : Text} {p : Program} {m : Minified} {k n : Nat} {f : Function}
  {line first v : Text}

theorem literals_counted (htables : options.tables = {}) (p : Program) :
    (stages options p).counted.literals = p.literals := by
  rw [counted_stages, literals_countDeclarationUses, literals_countCalls, folded_stages,
    literals_fold, pruned_stages, literals_prune, inlined_stages, htables,
    Substitution.Tables.inline_empty, marked_stages]
  rfl

theorem literals_extracted (options : Options) (p : Program) :
    (stages options p).extracted.program.literals = (stages options p).named.program.literals := by
  rw [extracted_stages, Output.extractTruth, literals_extractWords, localized_stages]
  rfl

/-- A variable that an event names stays declared until names are dealt. -/
theorem exists_declares_counted (htables : options.tables = {})
    (hf : f ∈ (stages options p).pruned.functions)
    (hused : v ∈ Usage.usedNames p.literals f) (hdeclared : v ∈ p.declarationNames)
    (hv : v ∉ Constant.foldedNames (stages options p).pruned) :
    ∃ d ∈ p.declarations, d.name = v ∧ (stages options p).counted.Declares d v := by
  have hinlined : (stages options p).inlined = p.markEntries options.entries := by
    rw [inlined_stages, htables, Substitution.Tables.inline_empty, marked_stages]
  rw [pruned_stages, hinlined] at hf hv
  obtain ⟨d, hd, hname, hdeclares⟩ := declares_prune hf hused hdeclared
  refine ⟨d, hd, hname, ?_⟩
  rw [counted_stages, folded_stages, pruned_stages, hinlined]
  exact (hdeclares.fold hv).countCalls.countDeclarationUses

/-- A declaration is written with the name it is dealt. -/
theorem declaredIn_emit {d : Declaration} {new : Text}
    (hextracted : (stages options p).extracted.program.Sealed)
    (htype : isIdent d.type = true)
    (hnew : (newNames (stages options p).counted (.new .globals)).find? v = some new)
    (h : (stages options p).counted.Declares d v) :
    DeclaredIn (emit (stages options p).extracted.program) { d with name := new } := by
  have hrenamed : renamed (newNames (stages options p).counted (.new .globals)) v = new := by
    rw [renamed, hnew]; rfl
  have hdeclares := h.renameGlobals (.new .globals)
  rw [hrenamed, ← named_stages] at hdeclares
  have hlocalized := hdeclares.renameAllLocals
  rw [← localized_stages] at hlocalized
  have hfinal := hlocalized.extractWords (stages options p).named.pool Output.truthWords
  rw [← Output.extractTruth, ← extracted_stages] at hfinal
  exact hfinal.declaredIn hextracted htype (givesIdents_deal _ _ v new hnew)

/-- The call of an event stays to the end. -/
theorem exists_callIn_extracted {callee : Text} (hcounted : (stages options p).counted.Sealed)
    (hnamed : (stages options p).counted.Named)
    (hf : (stages options p).counted.functions[k]? = some f)
    (hlocalized : (stages options p).localized.Sealed) (hcallee : isIdent callee = true)
    (h : EventIn f callee n) :
    ∃ f' callee' first', (stages options p).extracted.program.functions[k]? = some f' ∧
    isIdent callee' = true ∧
      (callee ∉ Output.truthWords → callee ∉ (stages options p).counted.declarationNames →
        callee ∉ (stages options p).counted.functionNames → callee ∉ f.scopedNames →
        callee' = callee) ∧
      CallIn f'.body callee' first' n := by
  have htruth : ∀ word ∈ Output.truthWords, mark ∉ word := by decide
  obtain ⟨f₁, callee₁, first₁, hf₁, hident₁, hsame₁, hcall₁⟩ :=
    h.localized hcounted hnamed hf hcallee
  rw [← named_stages, ← localized_stages] at hf₁
  obtain ⟨f', callee', first', hf', hident', hsame', hcall'⟩ :=
    exists_callIn_extractWords htruth hlocalized (stages options p).named.pool hf₁ hident₁ hcall₁
  rw [← Output.extractTruth, ← extracted_stages] at hf'
  refine ⟨f', callee', first', hf', hident', fun htruth hdeclared hfunction hscoped => ?_, hcall'⟩
  have heq := hsame₁ hdeclared hfunction hscoped
  rw [heq] at hsame'
  exact hsame' htruth

/-- **Variable events follow their variables.** -/
theorem variableEvent_follows (hmark : mark ∉ src) (hsize : src.length ≤ indexLimit)
    (htables : options.tables = {})
    (hread : readProgram src = .ok p) (hrun : minify options src = .ok m)
    (hf : (stages options p).pruned.functions[k]? = some f) (h : NamesVariable p f line first n v)
    (hfirst : mark ∉ first) (hv : v ∉ Constant.foldedNames (stages options p).pruned)
    (hcallee : Idiom.variableEvent.callee ∈ f.scopedNames ∨
      Idiom.variableEvent.callee ∉ Constant.foldedNames (stages options p).pruned)
    (hline : ∀ x ∈ localName? line, x ∉ (renameLocals f).dropped) :
    ∃ new, EventFollows p (stages options p) f k n v new m.text := by
  have hclean : options.tables.Clean := by
    rw [htables]
    exact ⟨nofun, nofun⟩
  have hall := programs_sealed options hclean (sealed_readProgram hmark hread)
  simp only [Stages.programs, List.forall_mem_cons] at hall
  obtain ⟨-, -, -, hpruned, -, hcounted, hnamed, hlocalized, hextracted, -⟩ := hall
  have hidents := named_readProgram hread
  obtain ⟨hprunedNames, hcountedNames⟩ := within_stages htables p
  have hn : n < indexLimit := Nat.lt_of_lt_of_le (Literals.lt_size_of_get? h.literal)
    (Nat.le_trans (size_readProgram_le hmark hread) hsize)
  have hident := hidents.declarations v h.declared
  have hevent : EventIn f Idiom.variableEvent.callee n := .intro h.mem h.call hfirst hline
  have hcalleeIdent : isIdent Idiom.variableEvent.callee = true := by decide
  have htext : m.text = emit (stages options p).extracted.program := by
    obtain ⟨p', hp', rfl⟩ := minify_eq_ok hrun
    rw [hread, Except.ok.injEq] at hp'
    rw [← hp', text_stages]
  -- the variable is used by the event and stays declared
  have hused : v ∈ Usage.usedNames p.literals f := by
    have hids := hevent.mem_ids (hpruned.functions f (List.mem_of_getElem? hf)).body hn
    refine List.mem_append_right _
      (List.mem_filterMap.2 ⟨nameLiteral v, ?_, literalName?_nameLiteral hident⟩)
    exact List.mem_filterMap.2 ⟨n, hids, h.literal⟩
  obtain ⟨d, hd, hname, hdeclares⟩ :=
    exists_declares_counted htables (List.mem_of_getElem? hf) hused h.declared hv
  -- the event is there when names are dealt
  obtain ⟨f₂, hf₂, hscope, hevent₂⟩ :=
    hevent.counted hpruned (hidents.of_within hprunedNames) hf hcalleeIdent hcallee
  rw [← folded_stages, ← counted_stages] at hf₂
  have hnaming : n ∈ namingLiterals (stages options p).counted := by
    have hf₂' := List.mem_of_getElem? hf₂
    refine List.mem_eraseDups.2 (List.mem_flatMap.2 ⟨f₂, hf₂', List.mem_append_right _ ?_⟩)
    exact hevent₂.mem_ids (hcounted.functions f₂ hf₂').body hn
  obtain ⟨new, hnew⟩ := Naming.exists_newName hdeclares.mem_declarationNames (Pool.new .globals)
  obtain ⟨f', callee', first', hf', hident', hsame, hcall⟩ :=
    exists_callIn_extracted hcounted (hidents.of_within hcountedNames) hf₂ hlocalized
      hcalleeIdent hevent₂
  have hliteral :
      (stages options p).extracted.program.literals.get? n = some (nameLiteral new) := by
    have hlit : (stages options p).counted.literals.get? n = some (nameLiteral v) := by
      rw [literals_counted htables]
      exact h.literal
    rw [literals_extracted, named_stages]
    exact Naming.get?_renameGlobals hnaming hlit hident hnew
  refine ⟨new, ?_, ⟨d, hd, hname, ?_⟩, hliteral, f', callee', first', hf', hcall, ?_,
    fun hfree => ?_⟩
  · rw [named_stages]
    exact Naming.find?_newNames.1 hnew
  · rw [htext]
    exact declaredIn_emit hextracted (isIdent_type_readProgram hread hd) hnew hdeclares
  · rw [htext]
    exact hcall.calledIn hextracted (List.mem_of_getElem? hf') hident' hn hliteral
  · exact hsame (by decide) (fun hmem => hfree.declarations (hcountedNames.declarations hmem))
      (fun hmem => hfree.functions (hcountedNames.functions hmem))
        (fun hmem => hfree.bound (hscope hmem))

end Run

/-! ### Scripts with an event -/

/-- An event with a first argument, on the variable that a text gives. -/
def eventLine (start first literal : Text) : Text :=
  start ++
    (Idiom.variableEvent.callee ++ '(' ::
      (first ++ ',' :: literal ++ ",EQUAL,1.".toList ++ ')' :: []))

/-- A script that declares a variable and has an event on it. -/
def eventScript (declaration start first : String) : Text :=
  "globals\n".toList ++ declaration.toList ++
    "\nendglobals\nfunction main takes nothing returns nothing\n".toList ++
    eventLine start.toList first.toList (nameLiteral ['v']) ++ "\nendfunction\n".toList

/-- The program of such a script; the event's literal comes after those of its first argument. -/
def eventProgram (d : Declaration) (start first : String) (literals : List Text) : Program where
  literals := ⟨literals ++ [nameLiteral ['v']]⟩
  declarations := [d]
  functions := [.new "main".toList "nothing".toList "nothing".toList
    (eventLine start.toList first.toList (Literal.placeholder literals.length))]

/-- The variable `v`. -/
def watched (constant : Bool) (value : Option Text) : Declaration :=
  { constant, array := false, type := "real".toList, name := ['v'], value }

/-- A run in which a variable's event does not follow the variable. -/
def LeftBehind (src : Text) : Prop :=
  mark ∉ src ∧ ∃ p m k f line first n v, readProgram src = .ok p ∧
    (p.declarationNames ++ p.functionNames).Nodup ∧
    minify {} src = .ok m ∧ (stages {} p).pruned.functions[k]? = some f ∧
      NamesVariable p f line first n v ∧
    ∀ new, ¬ EventFollows p (stages {} p) f k n v new m.text

/-- The event of such a program is on its variable. -/
theorem namesVariable_eventProgram {p : Program} {f : Function} (start first : Text) {n : Nat}
    (hmem : eventLine start first (Literal.placeholder n) ∈ Text.pieces '\n' f.body)
    (hliteral : p.literals.get? n = some (nameLiteral ['v']))
    (hdeclared : ['v'] ∈ p.declarationNames)
    (hapart : ∀ c ∈ start.getLast?, Text.isWordChar c = false)
    (hcloses : Text.splitClose?
        (first ++ ',' :: Literal.placeholder n ++ ",EQUAL,1.".toList ++ ')' :: []) =
      some (first ++ ',' :: Literal.placeholder n ++ ",EQUAL,1.".toList, []))
    (harguments : Text.arguments (first ++ ',' :: Literal.placeholder n ++ ",EQUAL,1.".toList) =
      [first, Literal.placeholder n, "EQUAL".toList, "1.".toList]) :
    NamesVariable p f (eventLine start first (Literal.placeholder n)) first n ['v'] :=
  ⟨hmem, .intro hapart hcloses harguments, hliteral, hdeclared⟩

theorem watched_follows :
    (mark ∉ eventScript "real v" "call " "t" ∧
      (eventScript "real v" "call " "t").length ≤ indexLimit) ∧
      ∃ p m f line first, readProgram (eventScript "real v" "call " "t") = .ok p ∧
        minify {} (eventScript "real v" "call " "t") = .ok m ∧
        (stages {} p).pruned.functions[0]? = some f ∧
        NamesVariable p f line first 0 ['v'] ∧ mark ∉ first ∧
        ∃ new, EventFollows p (stages {} p) f 0 0 ['v'] new m.text := by
  have hscript : mark ∉ eventScript "real v" "call " "t" ∧
      (eventScript "real v" "call " "t").length ≤ indexLimit ∧
      (readProgram (eventScript "real v" "call " "t")).toOption =
        some (eventProgram (watched false none) "call " "t" []) := by
    unfold eventScript
    repeat rw [String.toList_ofList]
    decide +kernel
  obtain ⟨hmark, hsize, hsome⟩ := hscript
  obtain ⟨hread, hrun⟩ := minify_of_toOption hsome {}
  have hfolded :
      Constant.foldedNames (stages {} (eventProgram (watched false none) "call " "t" [])).pruned =
        [] := by
    decide +kernel
  obtain ⟨f, hf, hbody, hdropped⟩ : ∃ f,
      (stages {} (eventProgram (watched false none) "call " "t" [])).pruned.functions[0]? = some f ∧
      f.body = eventLine "call ".toList "t".toList (Literal.placeholder 0) ∧
        (renameLocals f).dropped = [] :=
    ⟨_, rfl, rfl, by decide +kernel⟩
  have hnames : NamesVariable (eventProgram (watched false none) "call " "t" []) f
      (eventLine "call ".toList "t".toList (Literal.placeholder 0)) "t".toList 0 ['v'] := by
    refine namesVariable_eventProgram _ _ ?_ rfl (by decide) (by decide) (by decide +kernel)
      (by decide +kernel)
    rw [hbody]
    decide +kernel
  refine ⟨⟨hmark, hsize⟩, _, _, f, _, _, hread, hrun, hf, hnames, by decide, ?_⟩
  refine variableEvent_follows hmark hsize rfl hread hrun hf hnames (by decide) ?_ ?_ ?_
  · rw [hfolded]
    exact List.not_mem_nil
  · rw [hfolded]
    exact .inr List.not_mem_nil
  · rw [hdropped]
    exact fun x _ => List.not_mem_nil

/-- An event is left behind when its first argument holds a literal, when its variable is folded,
and when its line goes with an unused local. -/
theorem events_left_behind :
    LeftBehind (eventScript "real v" "call " "T(\"x\")") ∧
    LeftBehind (eventScript "constant real v=1." "call " "t") ∧
      LeftBehind (eventScript "real v" "local event e=" "t") := by
  refine ⟨?_, ?_, ?_⟩
  · have hscript : mark ∉ eventScript "real v" "call " "T(\"x\")" ∧
        (readProgram (eventScript "real v" "call " "T(\"x\")")).toOption =
          some (eventProgram (watched false none) "call " "T(\x000\x00)" ["\"x\"".toList]) := by
      unfold eventScript
      repeat rw [String.toList_ofList]
      decide +kernel
    obtain ⟨hmark, hsome⟩ := hscript
    obtain ⟨hread, hrun⟩ := minify_of_toOption hsome {}
    have hnames :
        (stages {}
          (eventProgram (watched false none) "call " "T(\x000\x00)" ["\"x\"".toList])).named.names =
            [] := by
      decide +kernel
    refine ⟨hmark, _, _, 0, _, _, _, 1, ['v'], hread, by decide +kernel, hrun, rfl,
      namesVariable_eventProgram "call ".toList "T(\x000\x00)".toList
        (by decide +kernel) rfl (by decide)
        (by decide) (by decide +kernel) (by decide +kernel), fun new h => ?_⟩
    have hrenamed := h.renamed
    rw [hnames] at hrenamed
    cases hrenamed
  · have hscript : mark ∉ eventScript "constant real v=1." "call " "t" ∧
        (readProgram (eventScript "constant real v=1." "call " "t")).toOption =
          some (eventProgram (watched true (some "1.".toList)) "call " "t" []) := by
      unfold eventScript
      repeat rw [String.toList_ofList]
      decide +kernel
    obtain ⟨hmark, hsome⟩ := hscript
    obtain ⟨hread, hrun⟩ := minify_of_toOption hsome {}
    have hnames :
        (stages {} (eventProgram (watched true (some "1.".toList)) "call " "t" [])).named.names =
          [] := by
      decide +kernel
    refine ⟨hmark, _, _, 0, _, _, _, 0, ['v'], hread, by decide +kernel, hrun, rfl,
      namesVariable_eventProgram "call ".toList "t".toList (by decide +kernel) rfl (by decide)
        (by decide) (by decide +kernel) (by decide +kernel), fun new h => ?_⟩
    have hrenamed := h.renamed
    rw [hnames] at hrenamed
    cases hrenamed
  · have hscript : mark ∉ eventScript "real v" "local event e=" "t" ∧
        (readProgram (eventScript "real v" "local event e=" "t")).toOption =
          some (eventProgram (watched false none) "local event e=" "t" []) := by
      unfold eventScript
      repeat rw [String.toList_ofList]
      decide +kernel
    obtain ⟨hmark, hsome⟩ := hscript
    obtain ⟨hread, hrun⟩ := minify_of_toOption hsome {}
    have hbodies :
        ((stages {}
          (eventProgram (watched false none) "local event e=" "t"
            [])).extracted.program.functions.map
        Function.body) = [[]] := by decide +kernel
    refine ⟨hmark, _, _, 0, _, _, _, 0, ['v'], hread, by decide +kernel, hrun, rfl,
      namesVariable_eventProgram "local event e=".toList "t".toList
        (by decide +kernel) rfl (by decide)
        (by decide) (by decide +kernel) (by decide +kernel), fun new h => ?_⟩
    obtain ⟨f', _, _, hf', ⟨line, hline, hcall⟩, -⟩ := h.called
    have hbody : f'.body = [] := by
      have hmem : f'.body ∈ [[]] := hbodies ▸ List.mem_map_of_mem (List.mem_of_getElem? hf')
      exact List.mem_singleton.1 hmem
    rw [hbody] at hline
    exact hcall.ne_nil (List.mem_singleton.1 hline)

end ScriptMinifier
