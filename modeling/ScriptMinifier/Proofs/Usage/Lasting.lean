import ScriptMinifier.Proofs.Naming.NewNames
import ScriptMinifier.Proofs.Syntax.LocalLines
import ScriptMinifier.Proofs.Usage.Citing
import ScriptMinifier.Proofs.Usage.VariableEvents

/-! Uses that last.

Naming a program takes uses away: a line goes with the local that it declares, a word that a
function binds becomes another, and so does a word whose new name the function binds. What writing
and reading may take away besides is what does not stand by itself. A use lasts where nothing of
this happens (`LastsIn`). A function lasts if such calls lead to it from an entry (`Lasting`,
`LastsAt`), and a name is used for good if a function that lasts uses it so, or the value of a
declaration does (`LastingUse`). -/
namespace ScriptMinifier

open Naming (newName)
open Syntax (Declaration Function localName?)

/-- A line of a function that stays when its unused locals are dropped. -/
structure Syntax.Function.Keeps (f : Function) (line : Text) : Prop where
  mem : line ∈ Text.pieces '\n' f.body
  stays : ∀ x ∈ localName? line, x ∉ (Naming.renameLocals f).dropped

namespace Usage

/-- A name that a function does not bind, under its old name or under its new one. -/
structure Unbound (p : Program) (f : Function) (name : Text) : Prop where
  old : name ∉ f.scopedNames
  new : newName p name ∉ f.scopedNames

/-- A name that is left to the host keeps its form, -/
theorem newName_of_undeclared {p : Program} {f : Function} {name : Text} (h : Undeclared p f name) :
    newName p name = name := by
  refine Naming.newName_of_not_mem fun hmem => ?_
  rcases Naming.mem_globalOrder.1 hmem with hdeclared | ⟨f, hf, -, rfl⟩
  · exact h.declarations hdeclared
  · exact h.functions (List.mem_map_of_mem hf)

/-- so the function does not bind what it becomes either. -/
theorem unbound_of_undeclared {p : Program} {f : Function} {name : Text} (h : Undeclared p f name) :
    Unbound p f name :=
  ⟨h.bound, by rw [newName_of_undeclared h]; exact h.bound⟩

/-- Where a name is looked up: a word in the program, a name in a literal by the call that takes
it. -/
def Uncovered (p : Program) (f : Function) : Option Idiom → Text → Prop
  | none, name => Unbound p f name
  | some idiom, _ => Undeclared p f idiom.callee

/-- A function cites a name on a line that stays, and the name or the call stays what it is. -/
structure LastsIn (p : Program) (f : Function) (kind : Option Idiom) (name line : Text) : Prop where
  keeps : f.Keeps line
  cites : Cites p.literals line kind name
  uncovered : Uncovered p f kind name

/-- A name to which calls that last lead from an entry. -/
inductive Lasting (p : Program) : Text → Prop
  | entry {name : Text} {f : Function} (hf : p.function? name = some f) (hentry : f.entry = true)
      (hdeclared : name ∉ p.declarationNames) : Lasting p name
  | call {caller name line : Text} {f g : Function} {kind : Option Idiom}
      (hcaller : Lasting p caller)
      (hf : p.function? caller = some f) (hg : p.function? name = some g)
      (hkind : kind ≠ some .variableEvent) (lasts : LastsIn p f kind name line) : Lasting p name

/-- The function at a position is an entry that keeps its name, or the first of a name that
lasts. -/
def LastsAt (p : Program) (k : Nat) (f : Function) : Prop :=
  f.entry = true ∧ f.name ∉ p.declarationNames ∨
    f.name ∉ p.functionNames.take k ∧ Lasting p f.name

/-- A use that lasts: in a function that does, or in the value of one of some declarations. -/
inductive LastingUse (p : Program) (values : Nat → Declaration → Prop) (name : Text) : Prop
  | word {k : Nat} {f : Function} {line : Text} (hf : p.functions[k]? = some f) (hk : LastsAt p k f)
      (plain : f.PlainLocals) (lasts : LastsIn p f none name line) : LastingUse p values name
  | event {k : Nat} {f : Function} {line : Text} (hf : p.functions[k]? = some f)
      (hk : LastsAt p k f) (declared : name ∈ p.declarationNames)
      (lasts : LastsIn p f (some .variableEvent) name line) : LastingUse p values name
  | value {j : Nat} {d : Declaration} {v : Text} (hd : p.declarations[j]? = some d)
      (hj : values j d) (hv : v ∈ d.value) (stands : Text.Stands name v) : LastingUse p values name

/-- A truth value that is not also a name, with a use that lasts beside those in constants. -/
structure LastingTruth (p : Program) (word : Text) : Prop where
  undeclared : word ∉ p.declarationNames
  unnamed : word ∉ p.functionNames
  use : LastingUse p (fun _ d => d.constant = false) word

end Usage
end ScriptMinifier
