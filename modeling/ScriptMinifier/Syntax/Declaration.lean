import ScriptMinifier.Fault
import ScriptMinifier.Syntax.Datatype
import ScriptMinifier.Text.Blank

/-! Declarations of constants and globals.

A declaration is a line `[constant] TYPE [array] NAME [= VALUE]` of a globals block,
where the type is built in. -/
namespace ScriptMinifier.Syntax

/-- A constant or a global. -/
structure Declaration where
  constant : Bool
  array : Bool
  type : Text
  name : Text
  /-- The text after the equals sign. -/
  value : Option Text
  /-- How often the name is used, as far as it has been counted. The program counts in words of
  32 bits, which agrees below 2^32 uses. -/
  uses : Nat := 0
deriving DecidableEq, Repr

namespace Declaration

/-- The two sides of the first equals sign; a text without one is all left side. -/
def sides (t : Text) : Text × Option Text :=
  match Text.cutAt? '=' t with
  | some (left, right) => (left, some right)
  | none => (t, none)

/-- The type, the array mark and the name that `TYPE [array] NAME` gives. -/
def typedName? : List Text → Option (Text × Bool × Text)
  | [type, name] => some (type, false, name)
  | [type, array, name] => if array = "array".toList then some (type, true, name) else none
  | _ => none

/-- The declaration on a line. -/
def parse? (line : Text) : Option Declaration :=
  let (left, value) := sides line
  let words := Text.fields left
  let constant := words.head? == some "constant".toList
  match typedName? (if constant then words.drop 1 else words) with
  | some (type, array, name) =>
    if isDatatype type && Text.isIdent name then some { constant, array, type, name, value }
    else none
  | none => none

/-- The declarations of a globals block; the first line that is none is a fault. -/
def parseAll (block : Text) : Except Fault (List Declaration) :=
  (((Text.lines block).map Text.trim).filter (· ≠ [])).mapM fun line =>
    match parse? line with
    | some d => .ok d
    | none => .error (.badGlobal line)

/-- A declaration as program text. An empty value is left out. -/
def render (d : Declaration) : Text :=
  (if d.constant then "constant ".toList else []) ++ d.type ++ [' '] ++
    (if d.array then "array ".toList else []) ++ d.name ++
    match d.value with
    | some (c :: rest) => '=' :: c :: rest
    | _ => []

/-- The declaration with its value changed. -/
def mapValue (f : Text → Text) (d : Declaration) : Declaration := { d with value := d.value.map f }

end Declaration
end ScriptMinifier.Syntax
