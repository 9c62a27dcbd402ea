import ScriptMinifier.Constant.Expression
import ScriptMinifier.Program
import ScriptMinifier.Text.Dictionary

/-! Folding constants.

The declarations are gone through in order. A constant of type integer, real or boolean
whose value can be computed is replaced by that value wherever it is named, first in all
other declarations, so that later ones can build on it, and in the end in the functions
that do not hide its name. Then it is dropped. -/
namespace ScriptMinifier.Constant

open Syntax (Declaration Function)

/-- What becomes of a constant that could be folded. -/
inductive Verdict
  | kept (name : Text) (fault : EvalFault)
  | folded (name value : Text)
deriving DecidableEq, Repr

/-- The value that a declaration is tried with: that of a plain constant of a type whose
constants have a value. -/
def candidateValue? (d : Declaration) : Option Text :=
  if d.constant && !d.array && Value.isFoldableType d.type then d.value else none

/-- What becomes of a declaration; most are no candidates. -/
def verdict? (ls : Literals) (d : Declaration) : Option Verdict :=
  (candidateValue? d).map fun t =>
    match evalAs ls d.type t with
    | .ok v => .folded d.name v.text
    | .error fault => .kept d.name fault

/-- A text with one name replaced. -/
def replaceName (name value : Text) (t : Text) : Text :=
  Text.replaceWords (fun w => if w = name then some value else none) t

/-- The declarations that stay, and the verdicts in order. `done` holds those already
gone through, the last first. -/
def foldFrom (ls : Literals) (done : List Declaration) :
    List Declaration → List Declaration × List Verdict
  | [] => (done.reverse, [])
  | d :: rest =>
    match verdict? ls d with
    | some (.folded name value) =>
      let replaced := Declaration.mapValue (replaceName name value)
      let (kept, verdicts) := foldFrom ls (done.map replaced) (rest.map replaced)
      (kept, .folded name value :: verdicts)
    | some (.kept name fault) =>
      let (kept, verdicts) := foldFrom ls (d :: done) rest
      (kept, .kept name fault :: verdicts)
    | none => foldFrom ls (d :: done) rest
termination_by ds => ds.length
decreasing_by all_goals simp

/-- The verdicts on a program's declarations. -/
def verdicts (p : Program) : List Verdict := (foldFrom p.literals [] p.declarations).2

/-- The folded constants and their values; of several of one name the last counts. -/
def foldedValues (p : Program) : Text.Dictionary Text :=
  .ofPairs ((verdicts p).filterMap fun
    | .folded name value => some (name, value)
    | .kept .. => none)

/-- A function with constants replaced, except those it hides. -/
def replaceIn (values : Text.Dictionary Text) (f : Function) : Function :=
  let hidden := f.scopedNames
  { f with
    body := Text.replaceWords (fun w => if hidden.contains w then none else values.find? w) f.body }

/-- The program with its constants folded. -/
def fold (p : Program) : Program :=
  { p with
    declarations := (foldFrom p.literals [] p.declarations).1
    functions := p.functions.map (replaceIn (foldedValues p)) }

/-- How many names have been folded. -/
def foldedCount (p : Program) : Nat := (foldedValues p).size

/-! ### Messages -/

/-- The message about a verdict. -/
def Verdict.message : Verdict → Message
  | kept name fault => debug ["fold: keep ".toList, name, " (".toList, fault.name, [')']]
  | folded name value => debug ["fold: ".toList, name, " = ".toList, value]

/-- The messages of folding. -/
def foldJournal (p : Program) : Journal :=
  (verdicts p).map Verdict.message ++
    [info ["fold: folded ".toList, Text.ofNat (foldedCount p), " constants".toList]]

end ScriptMinifier.Constant
