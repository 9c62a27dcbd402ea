import ScriptMinifier.Usage.Count

/-! Dropping what is not used.

Functions that the entries do not reach go first, then the declarations that are not used
by what is left. This is one round: a declaration that only a dropped one used stays. -/
namespace ScriptMinifier.Pruning

open Usage (countCalls countDeclarationUses)

/-- How many items were dropped. -/
structure Report where
  functions : Nat
  constants : Nat
  globals : Nat
deriving DecidableEq, Repr

/-- A report in words. -/
def Report.text (r : Report) : Text :=
  "Removed ".toList ++ Text.ofNat r.functions ++ " functions\n".toList ++
    "Removed ".toList ++ Text.ofNat r.constants ++ " constants\n".toList ++
    "Removed ".toList ++ Text.ofNat r.globals ++ " globals".toList

/-! ### Functions -/

/-- Whether a function stays. -/
def keepsFunction (f : Syntax.Function) : Bool := f.entry || 0 < f.uses

/-- The program without its unused functions. -/
def dropFunctions (p : Program) : Program :=
  { p with functions := p.functions.filter keepsFunction }

/-- The functions that go. -/
def droppedFunctions (p : Program) : List Syntax.Function := p.functions.filter (!keepsFunction ·)

/-! ### Declarations -/

/-- Whether a declaration stays. -/
def keepsDeclaration (d : Syntax.Declaration) : Bool := 0 < d.uses

/-- The program without its unused declarations. -/
def dropDeclarations (p : Program) : Program :=
  { p with declarations := p.declarations.filter keepsDeclaration }

/-- The declarations that go. -/
def droppedDeclarations (p : Program) : List Syntax.Declaration :=
  p.declarations.filter (!keepsDeclaration ·)

/-- How many of some declarations are constants, and how many are not. -/
def tally (ds : List Syntax.Declaration) : Nat × Nat :=
  (ds.countP (·.constant), ds.countP (!·.constant))

/-! ### Both -/

/-- The program once its functions are counted, and once more when its unused functions
are gone and its declarations are counted. -/
def countedCalls (p : Program) : Program := countCalls p

def countedUses (p : Program) : Program := countDeclarationUses (dropFunctions (countedCalls p))

/-- The program without what is not used. -/
def prune (p : Program) : Program := dropDeclarations (countedUses p)

/-- What pruning drops. -/
def report (p : Program) : Report :=
  let (constants, globals) := tally (droppedDeclarations (countedUses p))
  ⟨(droppedFunctions (countedCalls p)).length, constants, globals⟩

/-- The messages of pruning. -/
def journal (p : Program) : Journal :=
  let r := report p
  Usage.callJournal p ++
    (droppedFunctions (countedCalls p)).map
      (fun f => debug ["dce: drop function ".toList, f.name]) ++
    (droppedDeclarations (countedUses p)).map (fun d =>
      debug ["dce: drop ".toList, if d.constant then "constant ".toList else "global ".toList,
        d.name]) ++
    [info ["dce: removed ".toList, Text.ofNat r.functions, " functions, ".toList,
      Text.ofNat r.constants, " constants, ".toList, Text.ofNat r.globals, " globals".toList]]

end ScriptMinifier.Pruning
