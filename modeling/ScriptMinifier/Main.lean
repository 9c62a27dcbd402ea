import ScriptMinifier.Command.Run

/-! The command line. -/
namespace ScriptMinifier.Command

/-- The files of the machine. -/
def machineDisk : Disk IO where
  read path := do
    try
      return decoded (← IO.FS.readBinFile (String.ofList path))
    catch
      | .noFileOrDirectory .. => return .missing
      | _ => return .refused
  write path t := do
    try
      IO.FS.writeFile (String.ofList path) (String.ofList t)
      return true
    catch _ => return false

/-- The messages that a number of flags asks for. -/
def levelOf : Nat → Level
  | 0 => .warn
  | 1 => .info
  | 2 => .debug
  | _ => .trace

/-- The messages of a run, as far as its arguments ask for them. -/
def messages (a : Arguments) : IO Journal := do
  match ← (readAll machineDisk a).run with
  | .ok (options, src) => return (minifyJournal options src).upTo (levelOf a.verbosity)
  | .error _ => return []

/-- What is said about a run that does not finish. -/
def complaint : Outcome → Text
  | .misused =>
    "usage: [--constants FILE] [--functions FILE] [--keep NAME]... [-v]... INPUT OUTPUT\n".toList
  | .failed fault =>
    "error: ".toList ++ fault.message ++ ['\n'] ++
      match fault.help with
      | some hint => "help: ".toList ++ hint ++ ['\n']
      | none => []
  | .finished _ => []

end ScriptMinifier.Command

open ScriptMinifier.Command in
/-- Minifies one script. -/
def main (args : List String) : IO UInt32 := do
  let args := args.map String.toList
  if let some a := Arguments.parse? args then
    for message in ← messages a do
      IO.eprintln (String.ofList (message.level.name ++ ' ' :: message.text))
  let outcome ← run machineDisk args
  IO.print (String.ofList outcome.printed)
  IO.eprint (String.ofList (complaint outcome))
  return UInt32.ofNat outcome.exitCode
