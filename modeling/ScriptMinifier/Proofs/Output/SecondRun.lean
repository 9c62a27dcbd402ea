import ScriptMinifier.Proofs.Naming.Prepared
import ScriptMinifier.Proofs.Output.ReadAgain
import ScriptMinifier.Proofs.Output.WrittenPrograms

/-! A second run.

What a run writes can be read again, so a second run succeeds. It counts what is not used in the
program that it reads, and that need not be nothing (`second_run_removes`): the values of
declarations that the first run drops or folds are gone, and so are the lines of locals that it
drops, the words that a function hides, and the digits beside a dollar sign. But it counts nothing
that has a use left besides. Where every function lasts and every name is used for good, the second
run finds nothing to remove (`second_run_counts`). -/
namespace ScriptMinifier

open Literal (indexLimit)
open Naming (newName)
open Output (ReadAgain emit finished unlasting)
open Syntax (Declaration Function)
open Text (mark)
open Usage (Called KeptForUse LastingTruth LastingUse LastsAt unused)

/-- A program in which every function lasts, and every name and truth value is used for good. -/
structure AllLasting (p : Program) : Prop where
  functions : ∀ k f, p.functions[k]? = some f → LastsAt p k f
  declarations : ∀ k d, p.declarations[k]? = some d → LastingUse p (fun j _ => j ≠ k) d.name
  truths : ∀ x ∈ (finished p).extractions, LastingTruth p x.word

/-- What a run without tables makes of the text that `p` is written as once it is named. It reads
`q`, which declares what `p` does, under new names and after the constants of the truth values. What
has a use in `p` that lasts has one in `q`. -/
structure RunAgain (p : Program) (t : Text) (q : Program) (m : Minified) : Prop where
  read : readProgram t = .ok q
  run : minify {} t = .ok m
  report : m.report = unused q
  functionNames : q.functionNames = p.functionNames.map (newName p)
  declarationNames : q.declarationNames =
    ((finished p).extractions.map Output.Extraction.name).reverse ++
      p.declarationNames.map (newName p)
  functions : ∀ k f f', p.functions[k]? = some f → q.functions[k]? = some f' → LastsAt p k f →
    f'.entry = true ∨ Called q k f'
  declarations : ∀ k d d', p.declarations[k]? = some d →
    q.declarations[(finished p).extractions.length + k]? = some d' → d'.constant = d.constant ∧
      (LastingUse p (fun j _ => j ≠ k) d.name →
        KeptForUse q ((finished p).extractions.length + k) d')
  truths : ∀ k x d', (finished p).extractions.reverse[k]? = some x → q.declarations[k]? = some d' →
    d'.constant = true ∧ (LastingTruth p x.word → KeptForUse q k d')
  counts : m.report.functions ≤ (unlasting p).functions ∧
    m.report.constants ≤ (unlasting p).constants ∧ m.report.globals ≤ (unlasting p).globals
  nothing : AllLasting p → m.report = ⟨0, 0, 0⟩

theorem unlasting_of_allLasting {p : Program} (h : AllLasting p) : unlasting p = ⟨0, 0, 0⟩ := by
  have hdeclarations : ∀ x ∈ p.declarations.zipIdx, LastingUse p (fun j _ => j ≠ x.2) x.1.name :=
    fun x hx => h.declarations x.2 x.1 (List.mk_mem_zipIdx_iff_getElem?.1 hx)
  rw [unlasting, Pruning.Report.mk.injEq, List.countP_eq_zero, Nat.add_eq_zero_iff,
    List.countP_eq_zero, List.countP_eq_zero, List.countP_eq_zero]
  refine ⟨fun x hx => ?_, ⟨fun x hx => ?_, fun x hx => ?_⟩, fun x hx => ?_⟩
  · simpa using h.functions x.2 x.1 (List.mk_mem_zipIdx_iff_getElem?.1 hx)
  · simpa using h.truths x hx
  · simpa using fun _ => hdeclarations x hx
  · simpa using fun _ => hdeclarations x hx

theorem report_stages (p : Program) : (stages {} p).report = unused p := by
  have hreport : (stages {} p).report = Pruning.report (stages {} p).inlined := by rw [stages]
  rw [hreport, inlined_stages_empty, Usage.report_eq_unused]

/-- What a run makes of the program that it names. -/
theorem extracted_eq_finished (p : Program) :
    (stages {} p).extracted = finished (stages {} p).counted := by
  rw [extracted_stages, localized_stages, named_stages]
  rfl

/-- What the first run writes is read again. -/
theorem exists_readAgain {src : Text} {p : Program} {m : Minified} (hmark : mark ∉ src)
    (hsize : src.length ≤ indexLimit) (hread : readProgram src = .ok p)
    (hrun : minify {} src = .ok m)
    (hagain : m.text.length ≤ indexLimit) (hreadable : (stages {} p).pruned.Readable) :
    ∃ q, readProgram m.text = .ok q ∧ ReadAgain (stages {} p).counted q := by
  have hclean : ({} : Options).tables.Clean := ⟨nofun, nofun⟩
  have hsealed := sealed_readProgram hmark hread
  have hall := programs_sealed {} hclean hsealed
  have hcounted : (stages {} p).counted.Sealed := hall _ (by simp [Stages.programs])
  have hextracted : (stages {} p).extracted.program.Sealed := hall _ (by simp [Stages.programs])
  obtain ⟨b, hb, hp⟩ := readProgram_eq_ok.1 hread
  have hkept : (stages {} p).pruned.PartsOf p := by
    rw [pruned_stages, inlined_stages_empty]
    exact partsOf_prune p
  obtain ⟨henclosed, hlisted⟩ :=
    enclosed_stages hclean hsealed (enclosed_of_partsOf hmark hb hp hkept hreadable)
  have hliterals : p.literals.size ≤ indexLimit :=
    Nat.le_trans (size_readProgram_le hmark hread) hsize
  have hextractedSize : (stages {} p).extracted.program.literals.size ≤ indexLimit := by
    rw [size_extracted {} hcounted, inlined_stages_empty]
    exact hliterals
  have hcountedSize : (stages {} p).counted.literals.size ≤ indexLimit := by
    rw [counted_stages, literals_countDeclarationUses, literals_countCalls, folded_stages,
      literals_fold, hkept.literals]
    exact hliterals
  obtain ⟨q, hq, hreadFrom⟩ := exists_readFrom hextractedSize henclosed hlisted hextracted
  have htext : m.text = emit (stages {} p).extracted.program := by
    obtain ⟨p', hp', rfl⟩ := minify_eq_ok hrun
    obtain rfl := Except.ok.inj (hread.symm.trans hp')
    exact text_stages {} p
  have hmarkAgain : mark ∉ m.text := by
    rw [htext]
    exact Output.mark_not_mem_emit hextracted hextractedSize
  rw [← htext] at hq
  rw [extracted_eq_finished] at hextracted hreadFrom
  exact ⟨q, hq, prepared_counted hmark hread hreadable.params, hcountedSize,
    Nat.le_trans (size_readProgram_le hmarkAgain hq) hagain, hextracted, hreadFrom⟩

/-- A program with short names, none of which the words of the language stand in the way of. -/
def shortened (p : Program) : Program :=
  Naming.renameAllLocals (Naming.renameGlobals p Naming.Pool.unreserved).program

/-- Neither truth value stands in the program with its short names. -/
def HoldsNoTruth (p : Program) : Prop :=
  ∀ w ∈ Output.truthWords, Output.wordUses (shortened p) w = 0

instance (p : Program) : Decidable (HoldsNoTruth p) :=
  inferInstanceAs (Decidable (∀ w ∈ Output.truthWords, Output.wordUses (shortened p) w = 0))

/-- Where no truth value is written, a run only deals names. -/
theorem finished_of_no_truth {p : Program} (h : HoldsNoTruth p) :
    (finished p).program = shortened p ∧ (finished p).extractions = [] := by
  have hnamed :
      Naming.renameAllLocals (Naming.renameGlobals p (.new .globals)).program = shortened p := by
    rw [shortened, ← Naming.program_renameGlobals_congr Naming.Pool.dealsLike_unreserved]
  have hextract : ∀ pool, Output.extractTruth (shortened p) pool = ⟨shortened p, pool, []⟩ := by
    intro pool
    have htrue := h "true".toList List.mem_cons_self
    have hfalse := h "false".toList (List.mem_cons_of_mem _ List.mem_cons_self)
    simp only [Output.extractTruth, Output.truthWords, Output.extractWords, htrue, hfalse, true_or,
      if_true]
  rw [finished, hnamed, hextract]
  exact ⟨rfl, rfl⟩

theorem minify_of_no_truth {src : Text} {p q : Program}
    (hread : (readProgram src).toOption = some p) (hcounted : (stages {} p).counted = q)
    (h : HoldsNoTruth q) :
    minify {} src = .ok ⟨emit (shortened q), Pruning.report p⟩ := by
  rw [(minify_of_toOption hread {}).2, text_stages, extracted_eq_finished, hcounted,
    (finished_of_no_truth h).1, report_stages, Usage.report_eq_unused]

/-- A script in which `h` is not used, `main` calls `F`, and `F` uses `g`. -/
def lastingScript : Text :=
  ("globals\ninteger h\ninteger g\nendglobals\nfunction F takes nothing returns nothing\n" ++
    "set g=1\nendfunction\nfunction main takes nothing returns nothing\ncall F()\n" ++
    "endfunction\n").toList

/-- The program of that script. -/
def parsedProgram : Program where
  declarations := [
    { constant := false, array := false, type := "integer".toList, name := ['h'], value := none },
    { constant := false, array := false, type := "integer".toList, name := ['g'], value := none }]
  functions := [
    .new ['F'] "nothing".toList "nothing".toList "set g=1".toList,
    .new "main".toList "nothing".toList "nothing".toList "call F()".toList]

/-- What the first run leaves of it. -/
def lastingResult : Minified where
  text :=
    ("globals\ninteger A\nendglobals\nfunction B takes nothing returns nothing\nset A=1\n" ++
      "endfunction\nfunction main takes nothing returns nothing\ncall B()\nendfunction\n").toList
  report := ⟨0, 0, 1⟩

/-- The functions `F` and `main` as they are counted. -/
def setter : Function :=
  { Function.new ['F'] "nothing".toList "nothing".toList "set g=1".toList with uses := 1 }

def caller : Function :=
  { Function.new "main".toList "nothing".toList "nothing".toList "call F()".toList with uses := 1 }

/-- What is named of this program. -/
def lastingProgram : Program where
  declarations := [
    { constant := false, array := false, type := "integer".toList, name := ['g'], value := none
      uses := 1 }]
  functions := [setter, caller]

/-- How the script runs. -/
theorem lastingScript_run :
    (mark ∉ lastingScript ∧ lastingScript.length ≤ indexLimit ∧
      (readProgram lastingScript).toOption = some parsedProgram) ∧
    ((stages {} parsedProgram).counted = lastingProgram ∧ HoldsNoTruth lastingProgram) ∧
    (⟨emit (shortened lastingProgram), Pruning.report parsedProgram⟩ : Minified) =
      lastingResult ∧ lastingResult.text.length ≤ indexLimit := by
  unfold lastingScript lastingResult parsedProgram
  repeat rw [String.toList_append]
  repeat rw [String.toList_ofList]
  decide +kernel

theorem minify_lastingScript : minify {} lastingScript = .ok lastingResult := by
  obtain ⟨⟨-, -, hread⟩, ⟨hcounted, hnone⟩, hresult, -⟩ := lastingScript_run
  rw [minify_of_no_truth hread hcounted hnone, hresult]

/-- A word that a line of a function cites, where no local is declared and neither name is bound. -/
theorem lastsIn_of_word {p : Program} {f : Function} {before w after : Text}
    (hmem : before ++ (w ++ after) ∈ Text.pieces '\n' f.body)
    (hlocal : Syntax.localName? (before ++ (w ++ after)) = none)
    (hends : (∀ c ∈ before.getLast?, Text.isWordChar c = false ∧ c ≠ '$') ∧
      ∀ c ∈ after.head?, Text.isWordChar c = false ∧ c ≠ '$')
    (hold : w ∉ f.scopedNames) (hnew : newName p w ∉ f.scopedNames) :
    Usage.LastsIn p f none w (before ++ (w ++ after)) :=
  ⟨⟨hmem, by rw [hlocal]; nofun⟩, .word (.intro hends.1 fun _ _ _ => hends.2), hold, hnew⟩

theorem lasting_setter : Usage.Lasting lastingProgram setter.name := by
  have hcaller : lastingProgram.function? caller.name = some caller := by decide
  have hsetter : lastingProgram.function? setter.name = some setter := by decide
  have hlasts : Usage.LastsIn lastingProgram caller none setter.name
      ("call ".toList ++ (setter.name ++ "()".toList)) := by
    refine lastsIn_of_word ?_ ?_ ?_ ?_ ?_
    all_goals decide
  exact .call (.entry hcaller rfl (by decide)) hcaller hsetter
    (Option.some_ne_none Usage.Idiom.variableEvent).symm hlasts

theorem allLasting_lastingProgram : AllLasting lastingProgram := by
  have hsetter : LastsAt lastingProgram 0 setter := .inr ⟨List.not_mem_nil, lasting_setter⟩
  refine ⟨fun k f hf => ?functions, fun k d hd => ?declarations, ?truths⟩
  case functions =>
    match k with
    | 0 =>
      obtain rfl := Option.some.inj hf
      exact hsetter
    | 1 =>
      obtain rfl := Option.some.inj hf
      exact .inl ⟨rfl, by decide⟩
  case declarations =>
    match k with
    | 0 =>
      obtain rfl := Option.some.inj hd
      have hplain : ∀ line ∈ Text.pieces '\n' setter.body, '$' ∉ (Declaration.sides line).1 := by
        decide
      have hlasts : Usage.LastsIn lastingProgram setter none ['g']
          ("set ".toList ++ (['g'] ++ "=1".toList)) := by
        refine lastsIn_of_word ?_ ?_ ?_ ?_ ?_
        all_goals decide
      exact .word (k := 0) rfl hsetter (fun line hline _ => hplain line hline) hlasts
  case truths =>
    have hnone := (finished_of_no_truth lastingScript_run.2.1.2).2
    rw [hnone]
    nofun

/-- A script with an `h` that only the unused `g` uses, and an `F` that only an unused local
calls. -/
def chainScript : Text :=
  ("globals\ninteger h\ninteger g=h\nendglobals\nfunction main takes nothing returns nothing\n" ++
    "local integer u=F()\nendfunction\nfunction F takes nothing returns integer\nreturn 1\n" ++
    "endfunction\n").toList

/-- The program of this script. -/
def chainProgram : Program where
  declarations := [
    { constant := false, array := false, type := "integer".toList, name := ['h'], value := none },
    { constant := false, array := false, type := "integer".toList, name := ['g'],
      value := some ['h'] }]
  functions := [
    .new "main".toList "nothing".toList "nothing".toList "local integer u=F()".toList,
    .new ['F'] "nothing".toList "integer".toList "return 1".toList]

/-- What the first run leaves of it. -/
def chainResult : Minified where
  text :=
    ("globals\ninteger B\nendglobals\nfunction main takes nothing returns nothing\nendfunction\n" ++
      "function A takes nothing returns integer\nreturn 1\nendfunction\n").toList
  report := ⟨0, 0, 1⟩

/-- What is named of this program. -/
def chainCounted : Program where
  declarations := [
    { constant := false, array := false, type := "integer".toList, name := ['h'], value := none }]
  functions := [
    { Function.new "main".toList "nothing".toList "nothing".toList "local integer u=F()".toList with
      uses := 1 },
    { Function.new ['F'] "nothing".toList "integer".toList "return 1".toList with uses := 1 }]

/-- The program of what is left. -/
def chainAgain : Program where
  declarations := [
    { constant := false, array := false, type := "integer".toList, name := ['B'], value := none }]
  functions := [
    .new "main".toList "nothing".toList "nothing".toList [],
    .new ['A'] "nothing".toList "integer".toList "return 1".toList]

/-- How this script runs, and what is read of what is left. -/
theorem chainScript_run :
    (readProgram chainScript).toOption = some chainProgram ∧
    ((stages {} chainProgram).counted = chainCounted ∧ HoldsNoTruth chainCounted) ∧
    (⟨emit (shortened chainCounted), Pruning.report chainProgram⟩ : Minified) = chainResult ∧
    (readProgram chainResult.text).toOption = some chainAgain ∧
      Pruning.report chainAgain = ⟨1, 0, 1⟩ := by
  unfold chainScript chainResult chainProgram
  repeat rw [String.toList_append]
  repeat rw [String.toList_ofList]
  decide +kernel

end ScriptMinifier
