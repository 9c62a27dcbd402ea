import ScriptMinifier.Proofs.Literal.SealedProgram
import ScriptMinifier.Proofs.Naming.Spared
import ScriptMinifier.Output.Truth

/-! The names that a run gives.

When pruning and folding are done, a run names what is left of a program with a new pool of globals,
and goes on with that pool for the truth values. No two words of the program get the same name
(`newName_injective`), and the name of a declaration has an upper-case letter, so that no local will
hide it (`any_isUpper_newName`). -/
namespace ScriptMinifier

open Syntax (Declaration Function Parameter entryNames)
open Text (isHorizontal isIdent)

/-- A program as it is named: what pruning and folding leave of a program that has been read. -/
structure Program.Prepared (p : Program) : Prop where
  sealed : p.Sealed
  named : p.Named
  entries : ∀ f ∈ p.functions, f.entry = entryNames.contains f.name
  declared : p.declarationNames.Nodup
  listed : ∀ f ∈ p.functions, (Parameter.parseAll? f.params).isSome = true
  /-- The only blank on a line is the space. -/
  spaced : ∀ f ∈ p.functions, ∀ c ∈ f.body, isHorizontal c = true → c = ' '

namespace Naming

variable {p : Program} {u v w : Text}

/-- The name that a run gives for a name. -/
def newName (p : Program) (w : Text) : Text := renamed (newNames p (Pool.new .globals)) w

theorem newName_of_not_mem (h : w ∉ globalOrder p) : newName p w = w := by
  rw [newName, renamed, find?_newNames_eq_none_of_not_mem h]
  rfl

/-- What is replaced is dealt a name. -/
theorem exists_deal_newName (h : w ∈ globalOrder p) :
    (newNames p (Pool.new .globals)).find? w = some (newName p w) := by
  obtain ⟨new, hnew⟩ := Option.ne_none_iff_exists'.1 fun hnone => find?_newNames_eq_none hnone h
  rw [newName, renamed, hnew]
  rfl

theorem newName_mem_drawMany (h : w ∈ globalOrder p) :
    newName p w ∈ ((reserveKept p (Pool.new .globals)).drawMany (globalOrder p).length).1 :=
  Pool.mem_drawMany_of_mem_deal (find?_newNames.1 (exists_deal_newName h))

/-- The names of globals have an upper-case letter, -/
theorem any_isUpper_newName (h : w ∈ globalOrder p) : (newName p w).any Char.isUpper = true :=
  Pool.any_isUpper_of_mem_drawMany rfl (newName_mem_drawMany h)

/-- and they are no words of the language. -/
theorem newName_not_mem_language (h : w ∈ globalOrder p) :
    newName p w ∉ Syntax.keywords ++ Syntax.datatypes :=
  Pool.not_mem_language_of_mem_drawMany (Pool.language_subset_reserved .globals [] _)
    (newName_mem_drawMany h)

theorem isIdent_newName (h : isIdent w = true) : isIdent (newName p w) = true :=
  (givesIdents_deal _ _).getD h

/-- No two words of a program get the same name. -/
theorem newName_injective (hu : u ∈ programWords p) (hv : v ∈ programWords p)
    (heq : newName p u = newName p v) : u = v := by
  by_cases hu' : u ∈ globalOrder p
  · have hnew := exists_deal_newName hu'
    by_cases hv' : v ∈ globalOrder p
    · have hnew' := exists_deal_newName hv'
      rw [← heq] at hnew'
      exact Pool.deal_injective (find?_newNames.1 hnew) (find?_newNames.1 hnew')
    · rw [newName_of_not_mem hv'] at heq
      exact absurd heq (ne_of_kept hv (find?_newNames_eq_none_of_not_mem hv') hnew)
  · rw [newName_of_not_mem hu'] at heq
    by_cases hv' : v ∈ globalOrder p
    · have hnew' := exists_deal_newName hv'
      exact absurd heq.symm (ne_of_kept hu (find?_newNames_eq_none_of_not_mem hu') hnew')
    · rw [heq, newName_of_not_mem hv']

theorem mem_programWords_of_declared (h : w ∈ p.declarationNames) : w ∈ programWords p := by
  obtain ⟨d, hd, rfl⟩ := List.mem_map.1 h
  refine List.mem_append_left _ (List.mem_append_left _ (List.mem_flatMap.2 ⟨d, hd, ?_⟩))
  exact List.mem_cons_of_mem _ List.mem_cons_self

theorem mem_programWords_of_function (h : w ∈ p.functionNames) : w ∈ programWords p := by
  obtain ⟨f, hf, rfl⟩ := List.mem_map.1 h
  exact List.mem_append_right _ (List.mem_flatMap.2 ⟨f, hf, List.mem_cons_self⟩)

theorem mem_globalOrder_of_declared (h : w ∈ p.declarationNames) : w ∈ globalOrder p :=
  mem_globalOrder.2 (.inl h)

/-- The pool that has named a program spares the words of the language and the names. -/
theorem spares_newNames (p : Program) :
    (renameGlobals p (Pool.new .globals)).pool.Spares (Syntax.keywords ++ Syntax.datatypes ++
      (p.declarationNames ++ p.functionNames).map (newName p)) := by
  have hscheme : (reserveKept p (Pool.new .globals)).scheme = .globals := rfl
  refine Pool.spares_drawMany hscheme fun w hw => ?_
  show Settled p (Pool.new .globals) w
  rcases List.mem_append.1 hw with hlanguage | hname
  · exact .inr (.inr (Syntax.not_any_isUpper_language w hlanguage))
  · obtain ⟨old, hold, rfl⟩ := List.mem_map.1 hname
    refine settled_renamed ?_
    exact (List.mem_append.1 hold).elim mem_programWords_of_declared mem_programWords_of_function

end Naming

namespace Program.Prepared

open Naming (globalOrder newName)

variable {p : Program} {w : Text}

/-- A name that stays is an entry's. -/
theorem mem_entryNames (h : p.Prepared) (hw : w ∈ p.functionNames) (hkept : w ∉ globalOrder p) :
    w ∈ entryNames := by
  obtain ⟨f, hf, rfl⟩ := List.mem_map.1 hw
  rw [Naming.mem_globalOrder, not_or, not_exists] at hkept
  have hentry : f.entry = true := by
    by_contra hother
    exact hkept.2 f ⟨hf, Bool.eq_false_iff.2 hother, rfl⟩
  rw [h.entries f hf] at hentry
  exact List.contains_iff_mem.1 hentry

/-- An entry keeps its name unless a declaration has it. -/
theorem newName_entry (h : p.Prepared) {f : Function} (hf : f ∈ p.functions)
    (hentry : f.entry = true)
    (hdeclared : f.name ∉ p.declarationNames) : newName p f.name = f.name := by
  refine Naming.newName_of_not_mem fun hmem => ?_
  rcases Naming.mem_globalOrder.1 hmem with hname | ⟨g, hg, hother, hname⟩
  · exact hdeclared hname
  · rw [h.entries f hf, ← hname, ← h.entries g hg, hother] at hentry
    cases hentry

/-- No name becomes a truth value. -/
theorem newName_not_mem_truthWords (h : p.Prepared)
    (hw : w ∈ p.declarationNames ∨ w ∈ p.functionNames) : newName p w ∉ Output.truthWords := by
  have hkeywords : ∀ w ∈ Output.truthWords, w ∈ Syntax.keywords := by decide
  by_cases hmem : w ∈ globalOrder p
  · exact fun htruth =>
      Naming.newName_not_mem_language hmem (List.mem_append_left _ (hkeywords _ htruth))
  · have hfunction := hw.resolve_left fun hdeclared =>
      hmem (Naming.mem_globalOrder_of_declared hdeclared)
    have hentries : ∀ w ∈ entryNames, w ∉ Output.truthWords := by decide
    rw [Naming.newName_of_not_mem hmem]
    exact hentries w (h.mem_entryNames hfunction hmem)

end Program.Prepared
end ScriptMinifier
