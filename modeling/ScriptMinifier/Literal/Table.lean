import ScriptMinifier.Literal.Placeholder
import ScriptMinifier.Text.Quoted
import ScriptMinifier.Text.Segment

/-! The literals of a program.

String and rawcode literals are lifted out of the text and numbered in the order in
which they are met, so that no later pass can look inside one. `restore` puts them
back. -/
namespace ScriptMinifier

open Text (Segment isQuote closeQuote? closeQuote?_length)
open Literal (placeholder placeholderId?)

/-- The literals met so far, quotes included, each under its position. -/
structure Literals where
  texts : List Text := []
deriving DecidableEq, Repr

namespace Literals

/-- The number of literals. -/
def size (ls : Literals) : Nat := ls.texts.length

/-- The literal of a number. -/
def get? (ls : Literals) (id : Nat) : Option Text := ls.texts[id]?

/-- The literals with one text replaced. -/
def set (ls : Literals) (id : Nat) (raw : Text) : Literals := ⟨ls.texts.set id raw⟩

/-- Registers a literal and gives its placeholder. -/
def intern (ls : Literals) (raw : Text) : Text × Literals :=
  (placeholder ls.size, ⟨ls.texts ++ [raw]⟩)

/-- The literal a placeholder stands for. -/
def lookup? (ls : Literals) (t : Text) : Option Text := (placeholderId? t).bind ls.get?

/-- A segment with its placeholder resolved; one that stands for nothing stays. -/
def restoreSegment (ls : Literals) : Segment → Text
  | .placeholder t => (ls.lookup? t).getD t
  | s => s.text

/-- The text with every placeholder replaced by its literal. -/
def restore (ls : Literals) (t : Text) : Text := (Text.segments t).flatMap ls.restoreSegment

/-- Lifts every quoted literal out of a text. A quote that is never closed is left
in place with all that follows it. -/
def lift (ls : Literals) : Text → Text × Literals
  | [] => ([], ls)
  | c :: rest =>
    if isQuote c then
      match _h : closeQuote? c rest with
      | none => (c :: rest, ls)
      | some (inside, after) =>
        let (held, ls') := ls.intern (c :: inside)
        let (out, ls'') := ls'.lift after
        (held ++ out, ls'')
    else
      let (out, ls') := ls.lift rest
      (c :: out, ls')
termination_by t => t.length
decreasing_by
  · exact Nat.lt_succ_of_le (closeQuote?_length _h)
  · exact Nat.lt_succ_self _

end Literals
end ScriptMinifier
