import ScriptMinifier.Proofs.Literal.Passes

/-! Placeholders stay whole through a run.

A script without marks gives a sealed program, and each step of a run takes sealed programs to
sealed ones, so all programs of the run are sealed and its text has no mark
(`stages_sealed`). -/
namespace ScriptMinifier

open Literal (indexLimit)
open Text (mark)

/-! ### A run -/

/-- The programs that a run goes through. -/
def Stages.programs (s : Stages) : List Program :=
  [s.parsed, s.marked, s.inlined, s.pruned, s.folded, s.counted, s.named.program, s.localized,
    s.extracted.program]

theorem literals_extractWords (p : Program) (pool : Naming.Pool) (words : List Text) :
    (Output.extractWords p pool words).program.literals = p.literals := by
  induction words generalizing p pool with
  | nil => rfl
  | cons word rest ih =>
    rw [Output.extractWords]
    simp only
    split
    · exact ih p pool
    · exact ih _ pool.draw.2

theorem literals_countDeclarationUses (p : Program) :
    (Usage.countDeclarationUses p).literals = p.literals := rfl

theorem literals_countCalls (p : Program) : (Usage.countCalls p).literals = p.literals := rfl

theorem literals_fold (p : Program) : (Constant.fold p).literals = p.literals := rfl

theorem literals_prune (p : Program) : (Pruning.prune p).literals = p.literals := rfl

/-- After its tables are put in, a program gets no more literals. -/
theorem size_extracted (options : Options) {p : Program} (h : (stages options p).counted.Sealed) :
    (stages options p).extracted.program.literals.size =
    (stages options p).inlined.literals.size := by
  have hnamed : (stages options p).named.program.literals.size =
      (stages options p).counted.literals.size := by
    rw [named_stages]
    exact (Naming.renameLiterals_clean (givesWords_newNames _ _) _ h.literals).2
  have hcounted : (stages options p).counted.literals = (stages options p).inlined.literals := by
    rw [counted_stages, literals_countDeclarationUses, literals_countCalls, folded_stages,
      literals_fold, pruned_stages, literals_prune]
  have hlocalized :
      (stages options p).localized.literals = (stages options p).named.program.literals := by
    rw [localized_stages]
    rfl
  rw [extracted_stages, Output.extractTruth, literals_extractWords, hlocalized, hnamed, hcounted]

theorem programs_sealed (options : Options) (htables : options.tables.Clean) {p : Program}
    (h : p.Sealed) :
    ∀ q ∈ (stages options p).programs, q.Sealed := by
  have hmarked := sealed_markEntries h options.entries
  rw [← marked_stages] at hmarked
  have hinlined := (Substitution.Tables.sealed_inline htables hmarked).1
  rw [← inlined_stages] at hinlined
  have hpruned := sealed_prune hinlined
  rw [← pruned_stages] at hpruned
  have hfolded := sealed_fold hpruned
  rw [← folded_stages] at hfolded
  have hcounted := sealed_countDeclarationUses (sealed_countCalls hfolded)
  rw [← counted_stages] at hcounted
  have hnamed := Naming.sealed_renameGlobals hcounted (.new .globals)
  rw [← named_stages] at hnamed
  have hlocalized := Naming.sealed_renameAllLocals hnamed
  rw [← localized_stages] at hlocalized
  have hextracted := Output.sealed_extractTruth hlocalized (stages options p).named.pool
  rw [← extracted_stages] at hextracted
  simp only [Stages.programs, List.forall_mem_cons, parsed_stages]
  exact ⟨h, hmarked, hinlined, hpruned, hfolded, hcounted, hnamed, hlocalized, hextracted, nofun⟩

/-- **Placeholders stay whole through a run.** A script and tables without marks, of a length
that a number of 64 bits counts: in the program after every step each mark of a body, a
parameter list or a value belongs to the placeholder of a literal that the program has, no
literal has a mark, and the text written has none. -/
theorem stages_sealed {options : Options} {src : Text} {m : Minified} (hmark : mark ∉ src)
    (htables : options.tables.Clean) (hsize : src.length + options.tables.length ≤ indexLimit)
    (h : minify options src = .ok m) :
    ∃ p, readProgram src = .ok p ∧ (∀ q ∈ (stages options p).programs, q.Sealed) ∧
      m.text = (stages options p).text ∧ mark ∉ m.text := by
  obtain ⟨p, hp, rfl⟩ := minify_eq_ok h
  have hread := sealed_readProgram hmark hp
  have hall := programs_sealed options htables hread
  have hcounted : (stages options p).counted.Sealed := hall _ (by simp [Stages.programs])
  have hextracted : (stages options p).extracted.program.Sealed :=
    hall _ (by simp [Stages.programs])
  have hlimit : (stages options p).extracted.program.literals.size ≤ indexLimit := by
    have hinlined :
        (stages options p).inlined.literals.size ≤ p.literals.size + options.tables.length := by
      rw [inlined_stages, marked_stages]
      exact (Substitution.Tables.sealed_inline htables (sealed_markEntries hread options.entries)).2
    have hsource := size_readProgram_le hmark hp
    rw [size_extracted options hcounted]
    omega
  refine ⟨p, hp, hall, rfl, ?_⟩
  rw [text_stages]
  exact Output.mark_not_mem_emit hextracted hlimit

/-- A script with a call and a constant that tables replace. -/
def tabledScript : Text :=
  ("globals\nstring g=\"a\"\nendglobals\nfunction main takes nothing returns nothing\n" ++
    "call Join(g,\"b,(\")\nset g=Greeting\nendfunction\n").toList

/-- Tables whose replacements hold literals. -/
def tabledOptions : Options where
  tables :=
    { functions := .ofPairs [("Join".toList, "set \\0 = \\1 + \"0\"".toList)]
      constants := .ofPairs [("Greeting".toList, "\"hello\"".toList)] }

def tabledResult : Minified where
  text :=
    ("globals\nstring A=\"a\"\nendglobals\nfunction main takes nothing returns nothing\n" ++
      "set A=\"b,(\"+\"0\"\nset A=\"hello\"\nendfunction\n").toList
  report := ⟨0, 0, 0⟩

theorem minify_tabledScript : minify tabledOptions tabledScript = .ok tabledResult := by
  refine eq_ok_of_toOption ?_
  unfold tabledScript tabledResult
  rw [String.toList_append, String.toList_append]
  repeat rw [String.toList_ofList]
  decide +kernel

theorem tabledScript_sealed :
    (mark ∉ tabledScript ∧ tabledOptions.tables.Clean ∧
        tabledScript.length + tabledOptions.tables.length ≤ indexLimit ∧
        minify tabledOptions tabledScript = .ok tabledResult) ∧
      ∃ p, readProgram tabledScript = .ok p ∧ (∀ q ∈ (stages tabledOptions p).programs, q.Sealed) ∧
        tabledResult.text = (stages tabledOptions p).text ∧ mark ∉ tabledResult.text := by
  have hscript : mark ∉ tabledScript ∧ tabledScript.length + tabledOptions.tables.length ≤
      indexLimit := by
    unfold tabledScript
    rw [String.toList_append, String.toList_ofList, String.toList_ofList]
    decide +kernel
  obtain ⟨hmark, hsize⟩ := hscript
  have hfunctions : ∀ entry ∈ tabledOptions.tables.functions.entries, mark ∉ entry.2 := by
    decide +kernel
  have hconstants : ∀ entry ∈ tabledOptions.tables.constants.entries, mark ∉ entry.2 := by
    decide +kernel
  exact ⟨⟨hmark, ⟨hfunctions, hconstants⟩, hsize, minify_tabledScript⟩,
    stages_sealed hmark ⟨hfunctions, hconstants⟩ hsize minify_tabledScript⟩

end ScriptMinifier
