import ScriptMinifier.Proofs.Spelling.Naming
import ScriptMinifier.Proofs.Usage.Insertion

/-! The text that is written does not depend on the names that are read.

Where the names of a program are apart from all other words (`Program.NamesApart`) and new names are
apart from them too (`Program.FreshNames`), the program with new names is written as the program is,
and as much is dropped from it (`finish_respell`). Names have to be identifiers: folding may write a
word that is no identifier and is a function's name. And a new name must not be one that the host
looks up in a string while another is the name in a string. -/
namespace ScriptMinifier

open Naming (Pool programWords renameAllLocals renameLocals)
open Output (Extracted emit extractWords replaceWord wordUses)
open Syntax (Declaration Function Parameter)
open Text (isIdent words dollarWords replaceWords replacement)
open Usage (Idiom countCalls countDeclarationUses finish literalName?)

/-! ### Uses are not written -/

namespace Program

variable (p : Program)

theorem renameAllLocals_withoutUses :
    renameAllLocals p.withoutUses = (renameAllLocals p).withoutUses := by
  have hfunction : ∀ f : Function, (renameLocals { f with uses := 0 }).function =
      { (renameLocals f).function with uses := 0 } := by
    intro f
    unfold renameLocals
    cases Parameter.parseAll? f.params <;> rfl
  rw [renameAllLocals, withoutUses, List.map_map, renameAllLocals, withoutUses, List.map_map]
  exact congrArg (Program.mk _ _ _) (List.map_congr_left fun f _ => hfunction f)

theorem wordUses_withoutUses (word : Text) : wordUses p.withoutUses word = wordUses p word := by
  rw [wordUses, wordUses, withoutUses, List.flatMap_map]
  rfl

theorem replaceWord_withoutUses (word name : Text) :
    replaceWord word name p.withoutUses = (replaceWord word name p).withoutUses := by
  rw [replaceWord, replaceWord, wordUses_withoutUses, withoutUses, withoutUses, List.map_map,
    List.map_map]
  rfl

theorem extractWords_withoutUses (pool : Pool) (ws : List Text) :
    (extractWords p.withoutUses pool ws).program =
    (extractWords p pool ws).program.withoutUses := by
  induction ws generalizing p pool with
  | nil => rfl
  | cons word rest ih =>
    rw [extractWords, extractWords, wordUses_withoutUses]
    dsimp only
    split
    · exact ih p pool
    · rw [replaceWord_withoutUses]
      exact ih _ _

theorem emit_withoutUses : emit p.withoutUses = emit p := by
  have hassemble : Output.assemble p.withoutUses = Output.assemble p := by
    rw [Output.assemble, Output.assemble, withoutUses, List.flatMap_map]
    rfl
  rw [emit, emit, Output.compact, hassemble, Output.compact]
  rfl

end Program

/-! ### New names for a program -/

namespace Program

variable (p : Program) (r : Text → Text)

/-- The names of declarations and functions. -/
def allNames : List Text := p.declarationNames ++ p.functionNames

/-- The names that may be changed: those of the declarations and of the functions that the host does
not call. -/
def givenNames : List Text :=
  p.declarationNames ++ (p.functions.filter (!·.entry)).map Function.name

/-- New names in the place of those that may be changed. -/
def spelling (w : Text) : Option Text := if w ∈ p.givenNames then some (r w) else none

/-- The program with new names. -/
def respell : Program :=
  { p with
    declarations := p.declarations.map (Declaration.respell (p.spelling r))
    functions := p.functions.map fun f =>
      { f with
        name := replacement (p.spelling r) f.name
        body := replaceWords (p.spelling r) f.body } }

/-- The texts that names stand in. -/
def nameTexts : List Text :=
  p.declarations.filterMap Declaration.value ++ p.functions.map Function.body

/-- The names of a program are distinct and name nothing else. -/
structure NamesApart : Prop where
  distinct : p.allNames.Nodup
  ordinary : ∀ n ∈ p.allNames, n ∉ languageWords
  idioms : ∀ f ∈ p.functions, ∀ idiom : Idiom, idiom.callee ∉ words f.body
  values : ∀ v ∈ p.declarations.filterMap Declaration.value, ∀ n ∈ p.functionNames, n ∉ words v
  types : ∀ d ∈ p.declarations, d.type ∉ p.allNames
  headers : ∀ f ∈ p.functions, f.result ∉ p.allNames ∧
    ∀ q ∈ (Parameter.parseAll? f.params).getD [], q.type ∉ p.allNames
  bound : ∀ f ∈ p.functions, ∀ x ∈ f.scopedNames, x ∉ p.allNames
  natives : ∀ n ∈ p.natives, ∀ w ∈ n.ownWords, w ∉ p.allNames
  dollar : ∀ t ∈ p.nameTexts, ∀ w ∈ dollarWords t, w ∉ p.allNames

/-- New names are distinct identifiers that the program does not hold. -/
structure FreshNames : Prop where
  injective : ∀ m ∈ p.givenNames, ∀ n ∈ p.givenNames, r m = r n → m = n
  ident : ∀ n ∈ p.givenNames, isIdent (r n) = true
  ordinary : ∀ n ∈ p.givenNames, r n ∉ languageWords
  fresh : ∀ n ∈ p.givenNames, r n ∉ programWords p ∧ ∀ f ∈ p.functions, r n ∉ f.scopedNames

/-- The names are identifiers, and no parameter list holds one. -/
structure IdentifierNames : Prop where
  ident : ∀ n ∈ p.allNames, isIdent n = true
  params : ∀ f ∈ p.functions, ∀ w ∈ words f.params, w ∉ p.allNames

/-- No new name is one that the host looks up in a string, or else no string gives a new name. -/
def Unheard : Prop :=
  (∀ n ∈ p.givenNames, ∀ idiom : Idiom, r n ≠ idiom.callee) ∨
    ∀ n ∈ p.givenNames, ∀ lit ∈ p.literals.texts, literalName? lit ≠ some (r n)

end Program

variable {p : Program} {r : Text → Text}

theorem spelling_eq_some {w s : Text} : p.spelling r w = some s ↔ w ∈ p.givenNames ∧ r w = s := by
  rw [Program.spelling, Option.ite_none_right_eq_some, Option.some.injEq]

theorem givenNames_subset (p : Program) : p.givenNames ⊆ p.allNames := by
  intro n hn
  rcases List.mem_append.1 hn with hdeclared | hfunction
  · exact List.mem_append_left _ hdeclared
  · obtain ⟨f, hf, rfl⟩ := List.mem_map.1 hfunction
    exact List.mem_append_right _ (List.mem_map_of_mem (List.mem_of_mem_filter hf))

/-- An entry keeps its name. -/
theorem Program.NamesApart.not_mem_givenNames (hp : p.NamesApart) {f : Function}
    (hf : f ∈ p.functions) (hentry : f.entry = true) : f.name ∉ p.givenNames := by
  obtain ⟨-, hfunctions, hdisjoint⟩ := List.nodup_append'.1 hp.distinct
  intro hmem
  rcases List.mem_append.1 hmem with hdeclared | hfunction
  · exact hdisjoint hdeclared (List.mem_map_of_mem hf)
  · obtain ⟨e, he, hname⟩ := List.mem_map.1 hfunction
    obtain ⟨he, hnot⟩ := List.mem_filter.1 he
    rw [List.inj_on_of_nodup_map hfunctions he hf hname, hentry] at hnot
    cases hnot

theorem allNames_subset (p : Program) : p.allNames ⊆ programWords p := by
  intro n hn
  rcases List.mem_append.1 hn with hdeclared | hfunction
  · obtain ⟨d, hd, rfl⟩ := List.mem_map.1 hdeclared
    exact List.mem_append_left _ (List.mem_append_left _
      (List.mem_flatMap.2 ⟨d, hd, List.mem_cons_of_mem _ List.mem_cons_self⟩))
  · obtain ⟨f, hf, rfl⟩ := List.mem_map.1 hfunction
    exact List.mem_append_right _ (List.mem_flatMap.2 ⟨f, hf, List.mem_cons_self⟩)

section Respell

variable (hp : p.NamesApart) (hident : p.IdentifierNames) (hr : p.FreshNames r)

include hp hident hr in
theorem spelling_spelling : Spelling (p.spelling r) where
  ident := by
    intro w s h
    obtain ⟨hw, rfl⟩ := spelling_eq_some.1 h
    exact ⟨hident.ident w (givenNames_subset p hw), hr.ident w hw⟩
  ordinary := by
    intro w s h
    obtain ⟨hw, rfl⟩ := spelling_eq_some.1 h
    exact ⟨hp.ordinary w (givenNames_subset p hw), hr.ordinary w hw⟩
  injective := by
    intro u v s hu hv
    rw [spelling_eq_some] at hu hv
    exact hr.injective u hu.1 v hv.1 (hu.2.trans hv.2.symm)
  apart := by
    intro w s h
    obtain ⟨hw, rfl⟩ := spelling_eq_some.1 h
    exact if_neg fun hmem => (hr.fresh w hw).1 (allNames_subset p (givenNames_subset p hmem))

include hr in
theorem old_of_mem_programWords {w : Text} (hw : w ∈ programWords p) : Old (p.spelling r) w := by
  intro n hn
  obtain ⟨hmem, rfl⟩ := spelling_eq_some.1 hn
  exact (hr.fresh n hmem).1 hw

include hr in
theorem outside_spelling {w : Text} (hname : w ∉ p.allNames)
    (hw : w ∈ programWords p ∨ ∃ f ∈ p.functions, w ∈ f.scopedNames) :
    Outside (p.spelling r) w where
  kept := if_neg fun hmem => hname (givenNames_subset p hmem)
  old := by
    intro n hn
    obtain ⟨hmem, rfl⟩ := spelling_eq_some.1 hn
    rcases hw with hw | ⟨f, hf, hw⟩
    · exact (hr.fresh n hmem).1 hw
    · exact (hr.fresh n hmem).2 f hf hw

theorem spelling_ne_none {w : Text} : p.spelling r w ≠ none ↔ w ∈ p.givenNames := by
  rw [Program.spelling]
  split <;> simp [*]

theorem Program.Unheard.quiet (h : p.Unheard r) : Quiet (p.spelling r) p.literals := by
  refine h.imp (fun hcallee idiom n hn => ?_) fun hliteral id lit hlit w hw n hn => ?_
  · obtain ⟨hmem, heq⟩ := spelling_eq_some.1 hn
    exact hcallee n hmem idiom heq
  · obtain ⟨hmem, rfl⟩ := spelling_eq_some.1 hn
    exact hliteral n hmem lit (List.mem_of_getElem? hlit) hw

include hp hident hr in
theorem suits_spelling (hunheard : p.Unheard r) : Suits (p.spelling r) p where
  declarations := by
    intro d hd
    have hwords : ∀ {w : Text}, w ∈ d.type :: d.name :: words (d.value.getD []) →
        w ∈ programWords p := fun hw =>
      List.mem_append_left _ (List.mem_append_left _ (List.mem_flatMap.2 ⟨d, hd, hw⟩))
    refine ⟨spelling_ne_none.2 (List.mem_append_left _ (List.mem_map_of_mem hd)),
      outside_spelling hr (hp.types d hd) (.inl (hwords List.mem_cons_self)),
        fun v hv => ⟨fun w hw => ?_, fun w hw => ?_⟩⟩
    · refine old_of_mem_programWords hr
        (hwords (List.mem_cons_of_mem _ (List.mem_cons_of_mem _ ?_)))
      rwa [Option.mem_def.1 hv]
    · have ht : v ∈ p.nameTexts := List.mem_append_left _ (List.mem_filterMap.2 ⟨d, hd, hv⟩)
      exact if_neg fun hmem => hp.dollar v ht w hw (givenNames_subset p hmem)
  functions := by
    intro f hf
    have hwords : ∀ {w : Text}, w ∈ f.name :: f.result :: words f.params ++ words f.body →
        w ∈ programWords p := fun hw =>
      List.mem_append_right _ (List.mem_flatMap.2 ⟨f, hf, hw⟩)
    have hresult : f.result ∈ f.name :: f.result :: words f.params ++ words f.body := by simp
    refine ⟨fun hentry =>
      ⟨if_neg fun hmem => ?_, old_of_mem_programWords hr (hwords List.mem_cons_self)⟩,
      fun hentry => spelling_ne_none.2
        (List.mem_append_right _ (List.mem_map.2 ⟨f, List.mem_filter.2 ⟨hf, ?_⟩, rfl⟩)),
      fun w hw => outside_spelling hr (hident.params f hf w hw) (.inl (hwords ?_)),
      outside_spelling hr (hp.headers f hf).1 (.inl (hwords hresult)),
      ⟨fun w hw => old_of_mem_programWords hr (hwords (List.mem_append_right _ hw)),
        fun w hw => ?_⟩,
      fun x hx => outside_spelling hr (hp.bound f hf x hx) (.inr ⟨f, hf, hx⟩), hp.idioms f hf⟩
    · exact hp.not_mem_givenNames hf hentry hmem
    · rw [hentry]
      rfl
    · exact List.mem_append_left _ (List.mem_cons_of_mem _ (List.mem_cons_of_mem _ hw))
    · have ht : f.body ∈ p.nameTexts := List.mem_append_right _ (List.mem_map_of_mem hf)
      exact if_neg fun hmem => hp.dollar f.body ht w hw (givenNames_subset p hmem)
  natives := by
    intro n hn w hw
    refine outside_spelling hr (hp.natives n hn w hw) (.inl ?_)
    exact List.mem_append_left _ (List.mem_append_right _ (List.mem_flatMap.2 ⟨n, hn, hw⟩))
  quiet := hunheard.quiet

include hp in
theorem closed_spelling : Closed (p.spelling r) p where
  values := by
    intro d hd v hv w hw hnamed
    refine (List.mem_append.1 (givenNames_subset p (spelling_ne_none.1 hnamed))).resolve_right
      fun hfunction => ?_
    exact hp.values v (List.mem_filterMap.2 ⟨d, hd, hv⟩) w hfunction hw
  bodies :=
    fun f _ w _ hnamed => List.mem_append.1 (givenNames_subset p (spelling_ne_none.1 hnamed))

theorem respelled_respell (p : Program) (r : Text → Text) :
    Respelled (p.spelling r) p (p.respell r) where
  literals := rfl
  natives := rfl
  declarations := rfl
  functions :=
    List.forall₂_map_right_iff.2 (List.forall₂_same.2 fun _ _ => ⟨rfl, rfl, rfl, rfl, rfl⟩)

end Respell

theorem Closed.countCalls {g : Text → Option Text} (h : Closed g p) : Closed g (countCalls p) where
  values := h.values
  bodies := by
    have hnames : (Usage.countCalls p).functionNames = p.functionNames := by
      rw [Program.functionNames, Usage.countCalls, List.map_map, Program.functionNames]
      conv_rhs => rw [← List.zipIdx_map_fst 0 p.functions, List.map_map]
      rfl
    intro f hf w hw hnamed
    obtain ⟨⟨f₀, k⟩, hmem, rfl⟩ := List.mem_map.1 hf
    rw [hnames]
    exact h.bodies f₀ (List.fst_mem_of_mem_zipIdx hmem) w hw hnamed

theorem Closed.countDeclarationUses {g : Text → Option Text} (h : Closed g p) :
    Closed g (countDeclarationUses p) := by
  have hnames : (Usage.countDeclarationUses p).declarationNames = p.declarationNames := by
    rw [Program.declarationNames, Usage.countDeclarationUses, List.map_map,
      Program.declarationNames]
    conv_rhs => rw [← List.zipIdx_map_fst 0 p.declarations, List.map_map]
    rfl
  refine ⟨fun d hd v hv w hw hnamed => ?_, fun f hf w hw hnamed => ?_⟩
  · obtain ⟨⟨d₀, k⟩, hmem, rfl⟩ := List.mem_map.1 hd
    rw [hnames]
    exact h.values d₀ (List.fst_mem_of_mem_zipIdx hmem) v hv w hw hnamed
  · rw [hnames]
    exact h.bodies f hf w hw hnamed

/-- Respelled programs are finished alike. -/
theorem Respelled.finish_eq {g : Text → Option Text} (hg : Spelling g) {p' : Program}
    (hnames : p.functionNames.Nodup)
    (hp : Suits g p) (hclosed : Closed g p) (h : Respelled g p p') : finish p' = finish p := by
  obtain ⟨hpruned, hreport⟩ := h.prune hg hp
  have hfolded := hpruned.fold hg hp.prune
  have hsuits := hp.prune.fold hg
  obtain ⟨hcalls, huses⟩ := hfolded.countCalls hg hsuits
  have hcounted := hcalls.countDeclarationUses hg hsuits.countCalls
  obtain ⟨hprogram, hpool⟩ := hcounted.renameGlobals hg hsuits.countCalls.countDeclarationUses
    ((hclosed.prune hnames hp).fold hg hp.prune).countCalls.countDeclarationUses huses
      (Pool.new .globals)
  have htext : ∀ q q' : Program, ∀ pool, q'.withoutUses = q.withoutUses →
      emit (Output.extractTruth (renameAllLocals q') pool).program =
        emit (Output.extractTruth (renameAllLocals q) pool).program := by
    intro q q' pool heq
    rw [← Program.emit_withoutUses, Output.extractTruth, ← Program.extractWords_withoutUses,
      ← Program.renameAllLocals_withoutUses, heq, Program.renameAllLocals_withoutUses,
      Program.extractWords_withoutUses, Program.emit_withoutUses]
    rfl
  rw [finish, finish, hreport, hpool, htext _ _ _ hprogram]

/-- **What is written does not depend on the names that are read.** -/
theorem finish_respell (hp : p.NamesApart) (hident : p.IdentifierNames) (hr : p.FreshNames r)
    (hunheard : p.Unheard r) :
    finish (p.respell r) = finish p := by
  have hnames : p.functionNames.Nodup := hp.distinct.of_append_right
  exact (respelled_respell p r).finish_eq (spelling_spelling hp hident hr) hnames
    (suits_spelling hp hident hr hunheard)
    (closed_spelling hp)

instance Usage.Idiom.decidableForall {P : Idiom → Prop} [DecidablePred P] :
    Decidable (∀ idiom, P idiom) :=
  decidable_of_iff (P .executeFunc ∧ P .variableEvent)
    ⟨fun h idiom => by cases idiom; exacts [h.1, h.2], fun h => ⟨h _, h _⟩⟩

/-- A program with a constant that is folded and one that stays, a native, a local and a string. -/
def namedProgram : Program where
  literals := ⟨["\"ready\"".toList]⟩
  declarations := [
    { constant := true, array := false, type := "integer".toList, name := "LIMIT".toList,
      value := some "2+1".toList },
    { constant := true, array := false, type := "string".toList, name := "WORD".toList,
      value := some "\x000\x00".toList },
    { constant := false, array := false, type := "integer".toList, name := "count".toList,
      value := some "LIMIT*2".toList },
    { constant := false, array := false, type := "integer".toList, name := "spare".toList,
      value := none }]
  natives := [⟨"Show".toList, [⟨"string".toList, ['s']⟩], "nothing".toList⟩]
  functions := [
    .new "main".toList "nothing".toList "nothing".toList "call step(LIMIT)\ncall Show(WORD)".toList,
    .new "step".toList "integer n".toList "nothing".toList
      "local integer k=n+count\nset count=k".toList,
    .new "unused".toList "nothing".toList "nothing".toList "call step(count)".toList]

/-- Some words that may be names. -/
def plainNames : List Text :=
  ["LIMIT", "WORD", "count", "spare", "main", "step", "unused", "zLIMIT", "zWORD",
      "zcount", "zspare",
  "zstep", "zunused", "C", "x", "5", "zC", "zx", "z5", "A", "zA", "f", "g", "k", "ExecuteFunc"].map
    String.toList

theorem plainNames_ordinary : ∀ n ∈ plainNames, n ∉ languageWords := by
  unfold plainNames
  simp only [List.map_cons, List.map_nil]
  repeat rw [String.toList_ofList]
  decide +kernel

/-- The conditions are met where every name gets one more letter. -/
theorem namedProgram_respelled :
    (namedProgram.NamesApart ∧ namedProgram.IdentifierNames ∧ namedProgram.FreshNames ('z' :: ·) ∧
        namedProgram.Unheard ('z' :: ·)) ∧
      (namedProgram.respell ('z' :: ·)).allNames.length = 7 ∧
      finish (namedProgram.respell ('z' :: ·)) = finish namedProgram := by
  have hp : namedProgram.NamesApart := by
    constructor
    case ordinary => exact fun n hn => plainNames_ordinary n (by revert n; decide +kernel)
    all_goals decide +kernel
  have hident : namedProgram.IdentifierNames := by
    constructor <;> decide +kernel
  have hr : namedProgram.FreshNames ('z' :: ·) := by
    constructor
    case ordinary => exact fun n hn => plainNames_ordinary _ (by revert n; decide +kernel)
    all_goals decide +kernel
  have hunheard : namedProgram.Unheard ('z' :: ·) := .inl (by decide +kernel)
  exact ⟨⟨hp, hident, hr, hunheard⟩, by decide +kernel, finish_respell hp hident hr hunheard⟩

/-- New names that change what is written. -/
def NamesMatter (p : Program) (r : Text → Text) : Prop :=
  p.NamesApart ∧ p.FreshNames r ∧ (finish (p.respell r)).text ≠ (finish p).text

/-- A function whose name is a number that folding writes. -/
def numberedProgram : Program where
  declarations := [
    { constant := true, array := false, type := "integer".toList, name := ['C'],
      value := some "2+3".toList },
    { constant := false, array := false, type := "integer".toList, name := ['x'], value := none }]
  functions := [
    .new "main".toList "nothing".toList "nothing".toList "call 5()\nset x=C".toList,
    .new ['5'] "nothing".toList "nothing".toList []]

/-- A global that stands in a parameter list that cannot be read. -/
def listedProgram : Program where
  declarations :=
    [{ constant := false, array := false, type := "integer".toList, name := ['A'], value := none }]
  functions := [.new "main".toList ['A'] "nothing".toList "set A=1".toList]

/-- A function that is given a string. -/
def heardProgram : Program where
  literals := ⟨["\"k\"".toList]⟩
  functions := [
    .new "main".toList "nothing".toList "nothing".toList "call f(\x000\x00)".toList,
    .new ['f'] "string s".toList "nothing".toList [],
    .new ['g'] "nothing".toList "nothing".toList []]

/-- Names that are no identifiers, names in a list that cannot be read, and a new name that the host
looks up in a string show in the text. -/
theorem names_matter :
    NamesMatter numberedProgram ('z' :: ·) ∧ NamesMatter listedProgram ('z' :: ·) ∧
      NamesMatter heardProgram fun n => if n = ['f'] then Idiom.executeFunc.callee else ['k'] := by
  have htexts : (finish (numberedProgram.respell ('z' :: ·))).text ≠ (finish numberedProgram).text ∧
      (finish (listedProgram.respell ('z' :: ·))).text ≠ (finish listedProgram).text ∧
      (finish (heardProgram.respell fun n => if n = ['f'] then Idiom.executeFunc.callee
        else ['k'])).text ≠
        (finish heardProgram).text := by
    decide +kernel
  refine ⟨⟨?_, ?_, htexts.1⟩, ⟨?_, ?_, htexts.2.1⟩, ⟨?_, ?_, htexts.2.2⟩⟩
  all_goals
    constructor
    case ordinary => exact fun n hn => plainNames_ordinary _ (by revert n; decide +kernel)
    all_goals decide +kernel

end ScriptMinifier
