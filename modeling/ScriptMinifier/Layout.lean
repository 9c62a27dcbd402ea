import ScriptMinifier.Text.Blank

/-! The layout of program text.

A block is squeezed line by line: blanks inside a line become one space or nothing,
blanks at either end of a line go, and lines without content go. No space is needed
next to an operator, a comma or a bracket. A native declaration keeps its spaces
single and is otherwise left as written. -/
namespace ScriptMinifier.Layout

open Text (isHorizontal)

/-- Characters that need no space around them. -/
def isTight (c : Char) : Bool :=
  ['=', '*', ',', '+', '/', '>', '<', '[', ']', '(', ')', '-', '!'].contains c

/-- Whether blanks between two neighbours leave a space. There is no neighbour before
the first character of a line. -/
def separates (before : Option Char) (after : Char) : Bool :=
  before.any (!isTight ·) && !isTight after

/-- A line squeezed from its middle: `before` is the last character kept and `pending`
says whether blanks have been passed since. -/
def squeezeFrom (before : Option Char) (pending : Bool) : Text → Text
  | [] => []
  | c :: rest =>
    if isHorizontal c then squeezeFrom before true rest
    else if pending && separates before c then ' ' :: c :: squeezeFrom (some c) false rest
    else c :: squeezeFrom (some c) false rest

/-- A line with its blanks squeezed. -/
def squeezeLine (line : Text) : Text := squeezeFrom none false line

/-- The squeezed lines of a block that have content. -/
def squeezedLines (t : Text) : List Text :=
  ((Text.pieces '\n' t).map squeezeLine).filter (· ≠ [])

/-- A globals or function block in its squeezed form. -/
def squeezeBlock (t : Text) : Text := Text.joined '\n' (squeezedLines t)

/-- Horizontal blanks collapsed to single spaces. -/
def collapseBlanks (pending : Bool) : Text → Text
  | [] => []
  | c :: rest =>
    if isHorizontal c then collapseBlanks true rest
    else if pending then ' ' :: c :: collapseBlanks false rest
    else c :: collapseBlanks false rest

/-- A native declaration in its squeezed form. -/
def squeezeNative (t : Text) : Text := collapseBlanks false (Text.trim t)

/-- A text without empty lines; `fresh` says whether a line is about to start. -/
def dropEmptyLines (fresh : Bool) : Text → Text
  | [] => []
  | c :: rest =>
    if c = '\n' then
      if fresh then dropEmptyLines true rest else c :: dropEmptyLines true rest
    else c :: dropEmptyLines false rest

/-- A text with newlines collapsed and none at its start. -/
def collapseNewlines (t : Text) : Text := dropEmptyLines true t

end ScriptMinifier.Layout
