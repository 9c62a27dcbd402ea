import ScriptMinifier.Fault
import ScriptMinifier.Syntax.Declaration
import ScriptMinifier.Syntax.Parameter

/-! Functions and natives.

A function keeps its parameter list and its body as text. Its parameters and its
locals hide globals of the same name inside it (`scopedNames`). -/
namespace ScriptMinifier.Syntax

/-! ### Locals -/

/-- The name that a line `local TYPE [array] NAME [= VALUE]` declares. -/
def localName? (line : Text) : Option Text :=
  (Text.dropStart? "local ".toList (Text.trim line)).bind fun rest =>
    (Declaration.typedName? (Text.fields (Declaration.sides rest).1)).bind fun (type, _, name) =>
      if isDatatype type && Text.isIdent name then some name else none

/-! ### Functions -/

/-- A function of the script. -/
structure Function where
  name : Text
  /-- The parameter list as written. -/
  params : Text
  result : Text
  body : Text
  /-- How often the function is called, as far as it has been counted. The program counts in words
  of 32 bits, which agrees below 2^32 calls. -/
  uses : Nat := 0
  /-- Whether the host calls it, so that it stays and keeps its name. -/
  entry : Bool
deriving DecidableEq, Repr

/-- The functions that the host calls in every script. -/
def entryNames : List Text := ["main".toList, "config".toList]

namespace Function

/-- A function as written, not yet counted. -/
def new (name params result body : Text) : Function :=
  { name, params, result, body, entry := entryNames.contains name }

/-- The names of the parameters, none when the list cannot be read. -/
def paramNames (f : Function) : List Text :=
  ((Parameter.parseAll? f.params).getD []).map Parameter.name

/-- The names of the locals, in order. -/
def localNames (f : Function) : List Text := (Text.lines f.body).filterMap localName?

/-- The names that hide globals inside the function. -/
def scopedNames (f : Function) : List Text := f.paramNames ++ f.localNames

/-- The function of a squeezed block: a header, and a body from the second line on. -/
def parse (block : Text) : Except Fault Function :=
  let (header, body) := (Text.cutAt? '\n' (Text.trim block)).getD (Text.trim block, [])
  match Header.parse? header with
  | some h => .ok (new h.name h.params h.result body)
  | none => .error (.badFunction header)

/-- A function as program text. -/
def render (f : Function) : Text :=
  "function ".toList ++ f.name ++ " takes ".toList ++ f.params ++ " returns ".toList ++ f.result ++
    '\n' :: f.body ++ "\nendfunction".toList

end Function

/-! ### Natives -/

/-- A native declaration. -/
structure Native where
  name : Text
  params : List Parameter
  result : Text
deriving DecidableEq, Repr

namespace Native

/-- The native that a declaration gives. -/
def parse (text : Text) : Except Fault Native :=
  let header? := (Text.dropStart? "native".toList (Text.trim text)).bind Header.parse?
  let native? := header?.bind fun h =>
    (Parameter.parseAll? h.params).map fun params => (⟨h.name, params, h.result⟩ : Native)
  match native? with
  | some n => .ok n
  | none => .error (.badFunction text)

/-- A native as program text. -/
def render (n : Native) : Text :=
  "native ".toList ++ n.name ++ " takes ".toList ++ Parameter.renderAll n.params ++
    " returns ".toList ++ n.result

end Native
end ScriptMinifier.Syntax
