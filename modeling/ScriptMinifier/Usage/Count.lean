import ScriptMinifier.Usage.CallGraph

/-! Counting uses.

A function is used once for each call of it in the functions that the entries reach, and
once more if it is an entry itself. A declaration is used once for each word that names
it in a body that does not hide the name, for each variable event on it, and for each
word that names it in another declaration's value; of several declarations of one name
the last is meant. -/
namespace ScriptMinifier.Usage

open Syntax (Declaration Function)

/-! ### Functions -/

/-- The entries, each where it is the first function of its name. -/
def entryNodes (p : Program) : List Nat :=
  p.functions.zipIdx.filterMap fun (f, k) =>
    if f.entry && firstIndex? p.functionNames f.name == some k then some k else none

/-- The program with the uses of its functions counted. -/
def countCalls (p : Program) : Program :=
  let counts := (CallGraph.ofProgram p).counts (entryNodes p)
  { p with functions := p.functions.zipIdx.map fun (f, k) =>
      { f with uses := counts.getD k 0 + (if f.entry then 1 else 0) } }

/-- The messages of counting calls. -/
def callJournal (p : Program) : Journal :=
  let g := CallGraph.ofProgram p
  let counted := (countCalls p).functions
  (g.expansion (entryNodes p)).map (fun node => trace ["reach: expand ".toList, g.nameOf node]) ++
    counted.map (fun f =>
      trace ["reach: ".toList, f.name, " used ".toList, Text.ofNat f.uses, " times".toList]) ++
    [debug ["reach: ".toList, Text.ofNat (counted.countP (0 < ·.uses)), " of ".toList,
      Text.ofNat counted.length, " functions reachable".toList]]

/-! ### Declarations -/

/-- The last position of a name. -/
def lastIndex? (names : List Text) (name : Text) : Option Nat :=
  (firstIndex? names.reverse name).map fun k => names.length - 1 - k

/-- The names of declarations that a function uses, one for each use. -/
def usedNames (ls : Literals) (f : Function) : List Text :=
  let hidden := f.scopedNames
  (Text.words f.body).filter (!hidden.contains ·) ++ Idiom.variableEvent.names ls f.body

/-- The declarations that functions use, one for each use. -/
def usesInFunctions (p : Program) : List Nat :=
  p.functions.flatMap fun f => (usedNames p.literals f).filterMap (lastIndex? p.declarationNames)

/-- The declarations that the values of others use, one for each use. -/
def usesInValues (p : Program) : List Nat :=
  p.declarations.zipIdx.flatMap fun (d, k) =>
    ((Text.words (d.value.getD [])).filterMap (lastIndex? p.declarationNames)).filter (· != k)

/-- The program with the uses of its declarations counted. -/
def countDeclarationUses (p : Program) : Program :=
  let uses := usesInFunctions p ++ usesInValues p
  { p with declarations := p.declarations.zipIdx.map fun (d, k) => { d with uses := uses.count k } }

end ScriptMinifier.Usage
