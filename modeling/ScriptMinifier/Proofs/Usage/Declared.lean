import ScriptMinifier.Proofs.Literal.Stages
import ScriptMinifier.Proofs.Naming.Replacements

/-! What stays declared.

Pruning keeps the declaration of every name that a function it keeps uses
(`declares_prune`), and folding that of every name it does not fold. The other steps change a
declaration's name, its value and its count, and nothing else of it. So what a program declares
can be followed step by step (`Program.Declares`). No step adds a name before truth values are
extracted (`within_stages`), and a run without tables puts nothing in place of a call
(`inline_empty`). -/
namespace ScriptMinifier

open Naming (Pool newNames renamed)
open Syntax (Declaration Function)
open Usage (lastIndex? firstIndex? usedNames usesInFunctions countCalls countDeclarationUses)

/-! ### Following a declaration -/

/-- A program has a declaration under a name, of the kind and type of a given one. -/
def Program.Declares (p : Program) (d : Declaration) (name : Text) : Prop :=
  ∃ d' ∈ p.declarations, d' = { d with name := name, value := d'.value, uses := d'.uses }

/-- Counting keeps every declaration at its place. -/
theorem mem_countDeclarationUses {p : Program} {d : Declaration} {k : Nat}
    (h : p.declarations[k]? = some d) :
    { d with uses := (usesInFunctions p ++ Usage.usesInValues p).count k } ∈
    (countDeclarationUses p).declarations :=
  List.mem_map.2 ⟨(d, k), List.mk_mem_zipIdx_iff_getElem?.2 h, rfl⟩

namespace Program.Declares

variable {p : Program} {d : Declaration} {name : Text}

theorem mem_declarationNames (h : p.Declares d name) : name ∈ p.declarationNames := by
  obtain ⟨d', hd', heq⟩ := h
  exact List.mem_map.2 ⟨d', hd', by rw [heq]⟩

theorem fold (h : p.Declares d name) (hname : name ∉ Constant.foldedNames p) :
    (Constant.fold p).Declares d name := by
  obtain ⟨d', hd', heq⟩ := h
  have hname' : d'.name ∉ Constant.foldedNames p := by rwa [heq]
  refine ⟨_, Constant.mapValue_mem_fold hd' hname', ?_⟩
  rw [heq]
  rfl

theorem countCalls (h : p.Declares d name) : (Usage.countCalls p).Declares d name := h

theorem countDeclarationUses (h : p.Declares d name) :
    (Usage.countDeclarationUses p).Declares d name := by
  obtain ⟨d', hd', heq⟩ := h
  obtain ⟨k, hk⟩ := List.mem_iff_getElem?.1 hd'
  refine ⟨_, mem_countDeclarationUses hk, ?_⟩
  rw [heq]

theorem renameGlobals (h : p.Declares d name) (pool : Pool) :
    (Naming.renameGlobals p pool).program.Declares d (renamed (newNames p pool) name) := by
  obtain ⟨d', hd', heq⟩ := h
  refine ⟨_, List.mem_map_of_mem hd', ?_⟩
  rw [heq]
  rfl

theorem renameAllLocals (h : p.Declares d name) : (Naming.renameAllLocals p).Declares d name := h

theorem extractWords (h : p.Declares d name) (pool : Pool) (words : List Text) :
    (Output.extractWords p pool words).program.Declares d name := by
  induction words generalizing p pool with
  | nil => exact h
  | cons word rest ih =>
    rw [Output.extractWords]
    simp only
    split
    · exact ih h pool
    · apply ih
      obtain ⟨d', hd', heq⟩ := h
      refine ⟨_, List.mem_cons_of_mem _ (List.mem_map_of_mem hd'), ?_⟩
      split
      · exact heq
      · rw [heq]
        rfl

end Program.Declares

/-! ### Pruning -/

namespace Usage

theorem exists_lastIndex? {names : List Text} {name : Text} (h : name ∈ names) :
    ∃ k, lastIndex? names name = some k ∧ names[k]? = some name := by
  have hsome : (firstIndex? names.reverse name).isSome = true := by
    rw [firstIndex?, List.findIdx?_isSome, List.any_eq_true]
    exact ⟨name, List.mem_reverse.2 h, beq_self_eq_true name⟩
  obtain ⟨k, hk⟩ := Option.isSome_iff_exists.1 hsome
  obtain ⟨hlt, hname, -⟩ := List.findIdx?_eq_some_iff_getElem.1 hk
  refine ⟨names.length - 1 - k, by rw [lastIndex?, hk]; rfl, ?_⟩
  rw [List.getElem_reverse, beq_iff_eq] at hname
  rw [List.getElem?_eq_some_iff]
  exact ⟨_, hname⟩

end Usage

/-- Pruning keeps the declaration of a name that a function it keeps uses. -/
theorem declares_prune {p : Program} {f : Function} {name : Text}
    (hf : f ∈ (Pruning.prune p).functions)
    (hused : name ∈ usedNames p.literals f) (hdeclared : name ∈ p.declarationNames) :
    ∃ d ∈ p.declarations, d.name = name ∧ (Pruning.prune p).Declares d name := by
  obtain ⟨k, hk, hname⟩ := Usage.exists_lastIndex? hdeclared
  rw [Program.declarationNames, List.getElem?_map, Option.map_eq_some_iff] at hname
  obtain ⟨d, hd, rfl⟩ := hname
  have huse : k ∈ usesInFunctions (Pruning.dropFunctions (countCalls p)) :=
    List.mem_flatMap.2 ⟨f, hf, List.mem_filterMap.2 ⟨d.name, hused, hk⟩⟩
  have hcounted := mem_countDeclarationUses (p := Pruning.dropFunctions (countCalls p)) hd
  refine ⟨d, List.mem_of_getElem? hd, rfl, _, List.mem_filter.2 ⟨hcounted, decide_eq_true ?_⟩, rfl⟩
  exact List.count_pos_iff.2 (List.mem_append_left _ huse)

/-! ### No tables -/

namespace Substitution.Tables

theorem inlineFunctions_empty (s : ProgramInlining) (fs : List Function) :
    inlineFunctions {} s fs = (fs, s) := by
  induction fs with
  | nil => rfl
  | cons f rest ih =>
    have hcalls : inlineCallsIn {} s f.body = (f.body, s) := rfl
    have hconstants : inlineConstantsIn {} f.scopedNames s f.body = (f.body, s) := rfl
    rw [inlineFunctions]
    simp only [hcalls, hconstants, ih]

theorem inlineValues_empty (s : ProgramInlining) (ds : List Declaration) :
    inlineValues {} s ds = (ds, s) := by
  induction ds with
  | nil => rfl
  | cons d rest ih =>
    have hconstants : ∀ t, inlineConstantsIn {} [] s t = (t, s) := fun _ => rfl
    rw [inlineValues]
    cases hvalue : d.value with
    | none => simp only [ih, ← hvalue]
    | some t => simp only [hconstants, ih, ← hvalue]

/-- A run without tables puts nothing in. -/
theorem inline_empty (p : Program) : inline {} p = p := by
  rw [inline, inlineAll]
  simp only [inlineFunctions_empty, inlineValues_empty]

end Substitution.Tables

/-- Without options a run drops what is not used in the script. -/
theorem inlined_stages_empty (p : Program) : (stages {} p).inlined = p := by
  have hmarked : p.markEntries [] = p := by
    have hfunctions : (p.functions.map fun f => { f with entry := f.entry || [].contains f.name }) =
        p.functions := by
      conv => rhs; rw [← List.map_id p.functions]
      exact List.map_congr_left fun f _ => by simp
    rw [Program.markEntries, hfunctions]
  rw [inlined_stages, marked_stages]
  exact (Substitution.Tables.inline_empty _).trans hmarked

/-! ### Names -/

/-- A program with no names but those of another. -/
structure Program.Within (q p : Program) : Prop where
  declarations : q.declarationNames ⊆ p.declarationNames
  functions : q.functionNames ⊆ p.functionNames

theorem Program.Within.trans {p q r : Program} (h : r.Within q) (h' : q.Within p) : r.Within p :=
  ⟨List.Subset.trans h.declarations h'.declarations, List.Subset.trans h.functions h'.functions⟩

theorem Program.Named.of_within {p q : Program} (h : p.Named) (hq : q.Within p) : q.Named :=
  h.of_subset hq.declarations hq.functions

theorem Program.PartsOf.within {p q : Program} (h : q.PartsOf p) : q.Within p := by
  refine ⟨fun name hname => ?_, fun name hname => ?_⟩
  · obtain ⟨d, hd, rfl⟩ := List.mem_map.1 hname
    obtain ⟨d', hd', heq⟩ := h.declarations d hd
    exact List.mem_map.2 ⟨d', hd', by rw [heq]⟩
  · obtain ⟨f, hf, rfl⟩ := List.mem_map.1 hname
    obtain ⟨f', hf', heq⟩ := h.functions f hf
    exact List.mem_map.2 ⟨f', hf', by rw [heq]⟩

theorem within_fold (p : Program) : (Constant.fold p).Within p := by
  constructor
  · obtain ⟨retained, hsub, heq⟩ := Constant.declarations_fold p
    rw [Program.declarationNames, heq, List.map_map]
    exact List.map_subset Declaration.name hsub.subset
  · rw [Program.functionNames, Constant.fold, List.map_map]
    exact List.Subset.refl _

/-- Up to the naming of globals no name is added. -/
theorem within_stages {options : Options} (htables : options.tables = {}) (p : Program) :
    (stages options p).pruned.Within p ∧ (stages options p).counted.Within p := by
  have hinlined : (stages options p).inlined.Within p := by
    rw [inlined_stages, htables, Substitution.Tables.inline_empty, marked_stages]
    exact (partsOf_markEntries p _).within
  have hpruned : (stages options p).pruned.Within p := by
    rw [pruned_stages]
    exact (partsOf_prune _).within.trans hinlined
  refine ⟨hpruned, ?_⟩
  rw [counted_stages, folded_stages]
  have hcounted := (partsOf_countDeclarationUses _).trans
    (partsOf_countCalls (Constant.fold (stages options p).pruned))
  exact hcounted.within.trans ((within_fold _).trans hpruned)

end ScriptMinifier
