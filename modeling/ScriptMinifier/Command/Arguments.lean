import ScriptMinifier.Text.Basic

/-! The arguments of the command.

The command takes an input and an output path, two paths of substitution tables, names of
functions to keep, and a flag for more messages. An option's value stands after an equals
sign or in the next argument, where it must not look like an option; the argument `--`
ends the options. -/
namespace ScriptMinifier.Command

/-- What a run of the command is asked to do. -/
structure Arguments where
  input : Text
  output : Text
  constants : Text
  functions : Text
  keep : List Text
  verbosity : Nat
deriving DecidableEq, Repr

/-- The arguments read so far. -/
structure Draft where
  paths : List Text := []
  constants : Option Text := none
  functions : Option Text := none
  keep : List Text := []
  verbosity : Nat := 0
deriving DecidableEq, Repr

/-- Where the tables are looked for when no option says so. -/
def defaultConstants : Text := "jass_constants.j".toList

def defaultFunctions : Text := "jass_functions.j".toList

/-- Whether an argument looks like an option. A lone dash does not. -/
def looksLikeOption (arg : Text) : Bool := arg.head? == some '-' && arg != ['-']

namespace Draft

/-- Gives an option its value. A path is not empty and is given once. -/
def setOption (d : Draft) (name value : Text) : Option Draft :=
  if name = "keep".toList then some { d with keep := d.keep ++ [value] }
  else if value = [] then none
  else if name = "constants".toList ∧
    d.constants = none then some { d with constants := some value }
  else if name = "functions".toList ∧
    d.functions = none then some { d with functions := some value }
  else none

/-- The two sides of the first equals sign of a long option. -/
def nameAndValue (option : Text) : Text × Option Text :=
  match Text.cutAt? '=' option with
  | some (name, value) => (name, some value)
  | none => (option, none)

/-- Reads arguments one after the other; none when they make no sense. -/
def read (d : Draft) : List Text → Option Draft
  | [] => some d
  | arg :: rest =>
    if arg = "--".toList then some { d with paths := d.paths ++ rest }
    else match Text.dropStart? "--".toList arg with
      | some option =>
        match nameAndValue option with
        | (name, some value) => (d.setOption name value).bind fun d => d.read rest
        | (name, none) =>
          if name = "verbose".toList then { d with verbosity := d.verbosity + 1 }.read rest
          else match rest with
            | value :: rest =>
              if looksLikeOption value then none
              else (d.setOption name value).bind fun d => d.read rest
            | [] => none
      | none =>
        if looksLikeOption arg then
          if arg.tail.all (· == 'v') then
            { d with verbosity := d.verbosity + arg.tail.length }.read rest
          else none
        else { d with paths := d.paths ++ [arg] }.read rest

/-- The arguments that a draft gives once it has both paths. -/
def finish? (d : Draft) : Option Arguments :=
  match d.paths with
  | [input, output] =>
    if input = [] ∨ output = [] then none
    else some {
      input, output
      constants := d.constants.getD defaultConstants
      functions := d.functions.getD defaultFunctions
      keep := d.keep
      verbosity := d.verbosity }
  | _ => none

end Draft

/-- The arguments of the command; none when they make no sense. -/
def Arguments.parse? (args : List Text) : Option Arguments :=
  (Draft.read {} args).bind Draft.finish?

end ScriptMinifier.Command
