import ScriptMinifier.Proofs.Constant.Values
import ScriptMinifier.Proofs.Layout.Squeezing
import ScriptMinifier.Proofs.Literal.Stages
import ScriptMinifier.Proofs.Naming.NewNames
import ScriptMinifier.Proofs.Output.Enclosed
import ScriptMinifier.Proofs.Usage.Declared
import ScriptMinifier.Proofs.Usage.References

/-! What comes before naming.

A function is an entry by its name when it is read, and its body is squeezed (`AsRead`). Pruning,
folding and counting keep both, and pruning leaves one declaration of a name. So the program that a
run names is prepared for it (`prepared_counted`). -/
namespace ScriptMinifier

open Layout (squeezeBlock)
open Pruning (prune)
open Syntax (Declaration Function Parameter entryNames)
open Text (isHorizontal mark)
open Usage (KeptForUse countDeclarationUses counted)

/-! ### Functions -/

/-- A function that is an entry by its name and has no blank on a line but the space. -/
structure Syntax.Function.AsRead (f : Function) : Prop where
  entry : f.entry = entryNames.contains f.name
  spaced : ∀ c ∈ f.body, isHorizontal c = true → c = ' '

theorem asRead_readProgram {src : Text} {p : Program} (h : readProgram src = .ok p) {f : Function}
    (hf : f ∈ p.functions) : f.AsRead := by
  obtain ⟨b, -, hp⟩ := readProgram_eq_ok.1 h
  obtain ⟨t, -, hparse⟩ := exists_of_mem_right (Program.ofBlocks_eq_ok.1 hp).2.2.2 hf
  obtain ⟨header, fields, -, -, heq, -⟩ := Function.parse_eq_ok hparse
  refine ⟨?_, fun c hc hhorizontal => ?_⟩
  · rw [heq]
    rfl
  · exact Layout.eq_space_of_mem_squeezeBlock hhorizontal
      ((body_infix_squeezeBlock hparse).subset hc)

/-- Counting and pruning change neither the text of a function nor whether it is an entry. -/
theorem asRead_prune {p : Program} (h : ∀ f ∈ p.functions, f.AsRead) :
    ∀ f ∈ (prune p).functions, f.AsRead := by
  intro f hf
  rw [Usage.functions_prune] at hf
  obtain ⟨k, f₀, hf₀, rfl, -⟩ := Usage.mem_retained.1 hf
  obtain ⟨hentry, hspaced⟩ := h f₀ (List.mem_of_getElem? hf₀)
  exact ⟨hentry, hspaced⟩

theorem asRead_fold {p : Program} (hnamed : p.Named) (h : ∀ f ∈ p.functions, f.AsRead) :
    ∀ f ∈ (Constant.fold p).functions, f.AsRead := by
  intro f hf
  obtain ⟨f₀, hf₀, rfl⟩ := List.mem_map.1 hf
  obtain ⟨hentry, hspaced⟩ := h f₀ hf₀
  have hrewritten := rewritten_folded hnamed f₀
  refine ⟨hentry, ?_⟩
  rw [hrewritten.body]
  exact Text.spaced_replaceWords hrewritten.foreign.smooth hspaced

theorem asRead_countCalls {p : Program} (h : ∀ f ∈ p.functions, f.AsRead) :
    ∀ f ∈ (Usage.countCalls p).functions, f.AsRead := by
  intro f hf
  rw [Usage.countCalls_eq] at hf
  obtain ⟨⟨f₀, k⟩, hf₀, rfl⟩ := List.mem_map.1 hf
  obtain ⟨hentry, hspaced⟩ := h f₀ (List.mem_of_getElem? (List.mk_mem_zipIdx_iff_getElem?.1 hf₀))
  exact ⟨hentry, hspaced⟩

/-! ### Declarations -/

open Classical in
/-- Pruning leaves one declaration of a name, the last. -/
theorem nodup_declarationNames_prune (p : Program) : (prune p).declarationNames.Nodup := by
  have hpositions : p.declarations.zipIdx.Pairwise fun x y => x.2 < y.2 := by
    refine List.pairwise_map.1 ?_
    rw [List.zipIdx_map_snd]
    exact List.pairwise_lt_range'
  rw [Program.declarationNames, Usage.declarations_prune, List.map_map, List.Nodup,
    List.pairwise_map]
  refine (List.pairwise_filter.2 (hpositions.imp_of_mem ?_))
  rintro ⟨d, j⟩ ⟨d', k⟩ - hd' hlt hkept - heq
  rw [decide_eq_true_iff] at hkept
  have hlast := hkept.1
  have hname : p.declarationNames[k]? = some d'.name := by
    rw [Program.declarationNames, List.getElem?_map, List.mk_mem_zipIdx_iff_getElem?.1 hd']
    rfl
  refine hlast (List.mem_iff_getElem?.2 ⟨k - (j + 1), ?_⟩)
  rw [List.getElem?_drop, Nat.add_sub_cancel' hlt, hname]
  exact congrArg some heq.symm

theorem nodup_declarationNames_fold {p : Program} (h : p.declarationNames.Nodup) :
    (Constant.fold p).declarationNames.Nodup := by
  obtain ⟨retained, hsub, heq⟩ := Constant.declarations_fold p
  rw [Program.declarationNames, heq, List.map_map]
  exact h.sublist (hsub.map Declaration.name)

theorem declarationNames_countDeclarationUses (p : Program) :
    (countDeclarationUses p).declarationNames = p.declarationNames := by
  rw [Usage.countDeclarationUses_eq, Program.declarationNames, List.map_map,
    Program.declarationNames]
  conv => rhs; rw [← List.zipIdx_map_fst 0 p.declarations, List.map_map]
  rfl

/-! ### The program that is named -/

/-- The program that a run names is prepared for it. -/
theorem prepared_counted {src : Text} {p : Program} (hmark : mark ∉ src)
    (hread : readProgram src = .ok p)
    (hlisted : ∀ f ∈ (stages {} p).pruned.functions, (Parameter.parseAll? f.params).isSome = true) :
    (stages {} p).counted.Prepared := by
  have hpruned : (stages {} p).pruned = prune p := by rw [pruned_stages, inlined_stages_empty]
  have hcounted : (stages {} p).counted =
      countDeclarationUses (Usage.countCalls (Constant.fold (prune p))) := by
    rw [counted_stages, folded_stages, hpruned]
  have hnamed := named_readProgram hread
  have hsealed := programs_sealed {} ⟨nofun, nofun⟩ (sealed_readProgram hmark hread)
  rw [hpruned] at hlisted
  have hfold := asRead_fold (hnamed.of_within (partsOf_prune p).within)
    (asRead_prune fun f hf => asRead_readProgram hread hf)
  have hasRead : ∀ f ∈ (stages {} p).counted.functions, f.AsRead := by
    rw [hcounted]
    exact asRead_countCalls hfold
  refine ⟨hsealed _ (by simp [Stages.programs]), hnamed.of_within (within_stages rfl p).2,
    fun f hf => (hasRead f hf).entry, ?_, fun f hf => ?_, fun f hf => (hasRead f hf).spaced⟩
  · rw [hcounted, declarationNames_countDeclarationUses]
    exact nodup_declarationNames_fold (nodup_declarationNames_prune p)
  · rw [hcounted] at hf
    obtain ⟨f₁, hf₁, heq⟩ := (partsOf_countCalls (Constant.fold (prune p))).functions f hf
    obtain ⟨f₂, hf₂, rfl⟩ := List.mem_map.1 hf₁
    rw [heq]
    exact hlisted f₂ hf₂

end ScriptMinifier
