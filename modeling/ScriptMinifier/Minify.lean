import ScriptMinifier.Constant.Folding
import ScriptMinifier.Naming.Local
import ScriptMinifier.Output.Assembly
import ScriptMinifier.Output.Truth
import ScriptMinifier.Pruning
import ScriptMinifier.Source.Event
import ScriptMinifier.Substitution.Inlining

/-! Minifying a script.

A script is read, its tables are put in, what is unused is dropped, constants are folded,
uses are counted, names are shortened, truth values are extracted, and the program is
written. `Stages` holds the program after every step. -/
namespace ScriptMinifier

open Naming (Pool GlobalRenaming renameGlobals renameAllLocals)
open Output (Extracted extractTruth emit)
open Pruning (Report prune)
open Substitution (Tables)

/-- What a run is given beside the script. -/
structure Options where
  /-- Functions that stay and keep their names, besides those that the host calls. -/
  entries : List Text := []
  tables : Tables := {}

/-- The program after every step of a run, and what the run gives. -/
structure Stages where
  parsed : Program
  marked : Program
  inlined : Program
  pruned : Program
  folded : Program
  counted : Program
  named : GlobalRenaming
  localized : Program
  extracted : Extracted
  text : Text
  report : Report

/-- All steps from a program that has been read. -/
def stages (options : Options) (parsed : Program) : Stages :=
  let marked := parsed.markEntries options.entries
  let inlined := options.tables.inline marked
  let pruned := prune inlined
  let folded := Constant.fold pruned
  let counted := Usage.countDeclarationUses (Usage.countCalls folded)
  let named := renameGlobals counted (Pool.new .globals)
  let localized := renameAllLocals named.program
  let extracted := extractTruth localized named.pool
  { parsed, marked, inlined, pruned, folded, counted, named, localized, extracted
    text := emit extracted.program
    report := Pruning.report inlined }

/-- The program that a script gives. -/
def readProgram (src : Text) : Except Fault Program := do Program.ofBlocks (← Source.blocks src)

/-- What minifying a script gives. -/
structure Minified where
  text : Text
  report : Report
deriving DecidableEq, Repr

/-- Minifies a script. -/
def minify (options : Options) (src : Text) : Except Fault Minified := do
  let s := stages options (← readProgram src)
  return ⟨s.text, s.report⟩

/-! ### Messages -/

/-- The messages of all steps after reading. -/
def Stages.journal (options : Options) (src : Text) (s : Stages) : Journal :=
  options.tables.journal s.marked ++ Pruning.journal s.inlined ++ Constant.foldJournal s.pruned ++
    Usage.callJournal s.folded ++ s.named.journal ++ Naming.localsJournal s.named.program ++
    s.extracted.journal ++ Output.emitJournal s.extracted.program ++
    [info ["minified ".toList, Text.ofNat (Text.byteLength src), " bytes to ".toList,
      Text.ofNat (Text.byteLength s.text), " bytes".toList]]

/-- The messages of minifying a script, up to the first fault. -/
def minifyJournal (options : Options) (src : Text) : Journal :=
  Source.journal src ++
    match Source.blocks src with
    | .error _ => []
    | .ok blocks =>
      Program.readingJournal blocks ++
        match Program.ofBlocks blocks with
        | .error _ => []
        | .ok p => (stages options p).journal options src

end ScriptMinifier
