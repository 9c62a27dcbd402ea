import ScriptMinifier.Text.Decimal

/-! What can be wrong with a script.

A fault names its cause; `Fault.message` is its wording and `Fault.help` the hint
shown with it. -/
namespace ScriptMinifier

/-- The parts of a script that must be closed before its end. -/
inductive Closable
  | string
  | rawcode
  | blockComment
  | globals
  | function
deriving DecidableEq, Repr

/-- What a part is called. -/
def Closable.name : Closable → Text
  | .string => "string literal".toList
  | .rawcode => "rawcode literal".toList
  | .blockComment => "block comment".toList
  | .globals => "globals block".toList
  | .function => "function block".toList

/-- Why a script cannot be minified. -/
inductive Fault
  /-- A part is open at the end of the script; positions count bytes. -/
  | unterminated (part : Closable) (start stop : Nat)
  /-- A function or native header cannot be read. -/
  | badFunction (header : Text)
  /-- A line of a globals block is no declaration. -/
  | badGlobal (line : Text)
  /-- A file cannot be read or written. -/
  | inaccessible (path : Text)
deriving DecidableEq, Repr

namespace Fault

/-- The wording of a fault. -/
def message : Fault → Text
  | unterminated part start _ =>
    "unterminated ".toList ++ part.name ++ " starting at byte ".toList ++ Text.ofNat start
  | badFunction header => "malformed function header: `".toList ++ header ++ ['`']
  | badGlobal line => "malformed global declaration: `".toList ++ line ++ ['`']
  | inaccessible path => "could not access ".toList ++ path

/-- The hint that goes with a fault. -/
def help : Fault → Option Text
  | unterminated .. => some "the input must be valid JASS source".toList
  | badFunction _ => some "expected `function NAME takes PARAMS returns TYPE`".toList
  | badGlobal _ =>
    some "expected `[constant] TYPE [array] NAME [= VALUE]` with a known type".toList
  | inaccessible _ => none

end Fault
end ScriptMinifier
