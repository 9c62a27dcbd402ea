import ScriptMinifier.Command.Arguments
import ScriptMinifier.Command.Disk
import ScriptMinifier.Minify

/-! Running the command.

The input is read, then the two tables, where a table that is not there is empty; the
minified script is written to the output, and the report is printed. -/
namespace ScriptMinifier.Command

variable {m : Type → Type} [Monad m]

/-- Reads a script. -/
def readScript (disk : Disk m) (path : Text) : ExceptT Fault m Text := do
  match ← (disk.read path : m Reading) with
  | .text t => return t
  | _ => throw (.inaccessible path)

/-- Reads a substitution table. -/
def readTable (disk : Disk m) (path : Text) : ExceptT Fault m Substitution.Table := do
  match ← (disk.read path : m Reading) with
  | .text t => return .parse t
  | .missing => return .empty
  | .refused => throw (.inaccessible path)

/-- Reads everything that minifying needs. -/
def readAll (disk : Disk m) (a : Arguments) : ExceptT Fault m (Options × Text) := do
  let src ← readScript disk a.input
  let functions ← readTable disk a.functions
  let constants ← readTable disk a.constants
  return (⟨a.keep, ⟨functions, constants⟩⟩, src)

/-- Reads, minifies and writes. -/
def perform (disk : Disk m) (a : Arguments) : ExceptT Fault m Pruning.Report := do
  let (options, src) ← readAll disk a
  let out ← ExceptT.mk (pure (minify options src))
  if ← (disk.write a.output out.text : m Bool) then return out.report
  else throw (.inaccessible a.output)

/-- How a run ends. -/
inductive Outcome
  /-- The arguments make no sense. -/
  | misused
  | failed (fault : Fault)
  | finished (report : Pruning.Report)
deriving DecidableEq, Repr

/-- The exit code. -/
def Outcome.exitCode : Outcome → Nat
  | finished _ => 0
  | failed _ => 1
  | misused => 2

/-- What is printed. -/
def Outcome.printed : Outcome → Text
  | finished report => report.text ++ ['\n']
  | _ => []

/-- Runs the command. -/
def run (disk : Disk m) (args : List Text) : m Outcome := do
  match Arguments.parse? args with
  | none => return .misused
  | some a =>
    match ← (perform disk a).run with
    | .ok report => return .finished report
    | .error fault => return .failed fault

end ScriptMinifier.Command
