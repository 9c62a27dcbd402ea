import ScriptMinifier.Text.Blank

/-! Parameter lists and headers.

A header is `NAME takes PARAMS returns TYPE`; a parameter list is `TYPE NAME` items
separated by commas, or the word `nothing`. -/
namespace ScriptMinifier.Syntax

/-- A parameter of a function or native. -/
structure Parameter where
  type : Text
  name : Text
deriving DecidableEq, Repr

namespace Parameter

/-- The parameter that `TYPE NAME` gives. -/
def parse? (t : Text) : Option Parameter :=
  match Text.fields t with
  | [type, name] => if Text.isIdent type && Text.isIdent name then some ⟨type, name⟩ else none
  | _ => none

/-- The parameters of a list. -/
def parseAll? (t : Text) : Option (List Parameter) :=
  if Text.trim t = "nothing".toList then some []
  else (Text.pieces ',' (Text.trim t)).mapM parse?

/-- A parameter as program text. -/
def render (p : Parameter) : Text := p.type ++ ' ' :: p.name

/-- A parameter list as program text. -/
def renderAll (ps : List Parameter) : Text :=
  if ps = [] then "nothing".toList else Text.joined ',' (ps.map render)

end Parameter

/-- The three fields of a header, as written. -/
structure Header where
  name : Text
  params : Text
  result : Text
deriving DecidableEq, Repr

/-- The fields of `NAME takes PARAMS returns TYPE`. The first `takes` and the last
`returns` count. -/
def Header.parse? (t : Text) : Option Header :=
  (Text.cutFirst? " takes ".toList (Text.trim t)).bind fun (name, rest) =>
    (Text.cutLast? " returns ".toList rest).bind fun (params, result) =>
      let name := Text.trim name
      let result := Text.trim result
      if Text.isIdent name && Text.isIdent result then some
        ⟨name, Text.trim params, result⟩ else none

end ScriptMinifier.Syntax
