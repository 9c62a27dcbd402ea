import ScriptMinifier.Literal.Table

/-! Calls that name a function or a variable in a string.

The host looks up a function by the text given to `ExecuteFunc` and a variable by the
text given to `TriggerRegisterVariableEvent`. Such a text counts as a use of what it
names, and follows it when it is renamed. -/
namespace ScriptMinifier.Usage

open Text (Segment)
open Literal (placeholderId?)

/-- The two calls. -/
inductive Idiom
  | executeFunc
  | variableEvent
deriving DecidableEq, Repr

/-- The function that is called. -/
def Idiom.callee : Idiom → Text
  | executeFunc => "ExecuteFunc".toList
  | variableEvent => "TriggerRegisterVariableEvent".toList

/-- The literal that is the whole argument list after a call's name. -/
def onlyArgument : List Segment → List Nat
  | .other ['('] :: .placeholder t :: .other (')' :: _) :: _ => (placeholderId? t).toList
  | _ => []

/-- The first literal before a newline. -/
def firstOnLine : List Segment → List Nat
  | [] => []
  | .placeholder t :: _ => (placeholderId? t).toList
  | .other t :: rest => if t.contains '\n' then [] else firstOnLine rest
  | .word _ :: rest => firstOnLine rest

/-- The literals that an idiom takes from what follows its name. -/
def Idiom.taken : Idiom → List Segment → List Nat
  | executeFunc, rest => onlyArgument rest
  | variableEvent, .other ('(' :: t) :: rest => firstOnLine (.other ('(' :: t) :: rest)
  | variableEvent, _ => []

/-- The literals that an idiom takes in a list of segments. -/
def Idiom.idsIn (idiom : Idiom) : List Segment → List Nat
  | [] => []
  | s :: rest =>
    (if s = .word idiom.callee then idiom.taken rest else []) ++ idiom.idsIn rest

/-- The literals that an idiom takes in a body. -/
def Idiom.ids (idiom : Idiom) (body : Text) : List Nat := idiom.idsIn (Text.segments body)

/-- The name in a literal: its first word. -/
def literalName? (lit : Text) : Option Text := (Text.words lit).head?

/-- The names that an idiom gives in a body. -/
def Idiom.names (idiom : Idiom) (ls : Literals) (body : Text) : List Text :=
  ((idiom.ids body).filterMap ls.get?).filterMap literalName?

end ScriptMinifier.Usage
