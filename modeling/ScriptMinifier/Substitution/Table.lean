import ScriptMinifier.Text.Blank
import ScriptMinifier.Text.Decimal
import ScriptMinifier.Text.Dictionary

/-! Substitution tables and templates.

A table gives a replacement for each of some names, one entry a line: the name, blanks,
and the replacement. In the replacement of a function `\k` stands for the argument number
`k` of the call. -/
namespace ScriptMinifier.Substitution

/-- Replacements by name. -/
abbrev Table := Text.Dictionary Text

/-- The entry on a line; a blank line has none. -/
def entry? (line : Text) : Option (Text × Text) :=
  let line := Text.trimStart line
  if line = [] then none
  else
    let isName (c : Char) := !Text.isBlank c
    some (line.takeWhile isName, Text.trim (line.dropWhile isName))

/-- The table that a text gives; a later line replaces an earlier one of its name. -/
def Table.parse (t : Text) : Table := Text.Dictionary.ofPairs ((Text.lines t).filterMap entry?)

/-! ### Templates -/

/-- A piece of a template. -/
inductive Part
  | char (c : Char)
  | argument (k : Nat)
deriving DecidableEq, Repr

/-- The pieces of a template. A backslash before digits is an argument; all the digits
count. -/
def parts : Text → List Part
  | [] => []
  | c :: rest =>
    if c = '\\' ∧ rest.head?.any Char.isDigit then
      .argument (Text.readDigits 10 (rest.takeWhile Char.isDigit) 0) ::
        parts (rest.dropWhile Char.isDigit)
    else .char c :: parts rest
termination_by t => t.length
decreasing_by
  · exact Nat.lt_succ_of_le (List.dropWhile_suffix _).length_le
  · exact Nat.lt_succ_self _

/-- The text of a piece, where its argument is given. -/
def Part.text? (args : List Text) : Part → Option Text
  | char c => some [c]
  | argument k => args[k]?

/-- A template with its arguments put in; none if one is missing. -/
def expand? (template : Text) (args : List Text) : Option Text :=
  ((parts template).mapM (Part.text? args)).map List.flatten

end ScriptMinifier.Substitution
