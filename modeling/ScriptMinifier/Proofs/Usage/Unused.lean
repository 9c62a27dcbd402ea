import ScriptMinifier.Proofs.Usage.References

/-! What a report counts.

Pruning counts what it drops. The functions that go are those that are no entries and that nothing
in reach calls, and the declarations that go are those that are not in use. So a report can be told
from the program alone (`report_eq_unused`), and it counts nothing just when everything is used
(`unused_eq_zero`). -/
namespace ScriptMinifier.Usage

open Classical in
/-- How many functions no entry reaches, and how many constants and globals are not in use. -/
noncomputable def unused (p : Program) : Pruning.Report where
  functions := p.functions.zipIdx.countP fun (f, k) => decide ¬ (f.entry = true ∨ Called p k f)
  constants := p.declarations.zipIdx.countP fun (d, k) => d.constant && decide ¬ KeptForUse p k d
  globals := p.declarations.zipIdx.countP fun (d, k) => !d.constant && decide ¬ KeptForUse p k d

/-- A program in which every function is an entry or called, and every declaration is in use. -/
structure AllUsed (p : Program) : Prop where
  functions : ∀ k f, p.functions[k]? = some f → f.entry = true ∨ Called p k f
  declarations : ∀ k d, p.declarations[k]? = some d → KeptForUse p k d

variable {p : Program}

open Classical in
theorem length_droppedFunctions (p : Program) :
    (Pruning.droppedFunctions (Pruning.countedCalls p)).length =
      p.functions.zipIdx.countP fun (f, k) => decide ¬ (f.entry = true ∨ Called p k f) := by
  rw [Pruning.droppedFunctions, Pruning.countedCalls, countCalls_eq, ← List.countP_eq_length_filter,
    List.countP_map]
  refine List.countP_congr fun ⟨f, k⟩ _ => ?_
  rw [Function.comp_apply, Bool.not_eq_true', decide_eq_true_iff, ← keepsFunction_counted,
    Bool.not_eq_true]

open Classical in
/-- The declarations that go, counted by what they declare. -/
theorem countP_droppedDeclarations (p : Program) (kind : Bool → Bool) :
    (Pruning.droppedDeclarations (Pruning.countedUses p)).countP (fun d => kind d.constant) =
      p.declarations.zipIdx.countP fun (d, k) => kind d.constant && decide ¬ KeptForUse p k d := by
  have hdeclarations :
      (Pruning.countedUses p).declarations = p.declarations.zipIdx.map fun (d, k) =>
        countedUse p.literals (Pruning.prune p).functions p.declarations k d :=
    congrArg Program.declarations (countDeclarationUses_eq (retained p))
  rw [Pruning.droppedDeclarations, hdeclarations, List.countP_filter, List.countP_map]
  refine List.countP_congr fun ⟨d, k⟩ _ => ?_
  have hkept :
      Pruning.keepsDeclaration
          (countedUse p.literals (Pruning.prune p).functions p.declarations k d) = true ↔
        KeptForUse p k d := decide_eq_true_iff.trans countedUse_uses_pos
  rw [Function.comp_apply, Bool.and_eq_true, Bool.and_eq_true, Bool.not_eq_true',
    decide_eq_true_iff, ← hkept, Bool.not_eq_true]
  rfl

/-- A report counts what is not used. -/
theorem report_eq_unused (p : Program) : Pruning.report p = unused p := by
  have hconstants := countP_droppedDeclarations p id
  have hglobals := countP_droppedDeclarations p (!·)
  rw [Pruning.report, Pruning.tally, unused, length_droppedFunctions]
  exact Pruning.Report.mk.injEq .. ▸ ⟨rfl, hconstants, hglobals⟩

theorem unused_eq_zero : unused p = ⟨0, 0, 0⟩ ↔ AllUsed p := by
  simp only [unused, Pruning.Report.mk.injEq, List.countP_eq_zero, Prod.forall,
    List.mk_mem_zipIdx_iff_getElem?, decide_eq_true_eq, Bool.and_eq_true, Bool.not_eq_true',
    not_and, not_not]
  constructor
  · rintro ⟨hfunctions, hconstants, hglobals⟩
    refine ⟨fun k f => hfunctions f k, fun k d hd => ?_⟩
    cases hkind : d.constant with
    | true => exact hconstants d k hd hkind
    | false => exact hglobals d k hd hkind
  · intro h
    exact ⟨fun f k => h.functions k f, fun d k hd _ => h.declarations k d hd,
      fun d k hd _ => h.declarations k d hd⟩

end ScriptMinifier.Usage
