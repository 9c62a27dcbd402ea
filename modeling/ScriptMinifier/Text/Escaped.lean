import ScriptMinifier.Text.Basic
import ScriptMinifier.Text.Printable

/-! Quoted text in messages.

Messages put names and stray characters between double quotes. The quote, the backslash
and the common control characters are written with a backslash and a letter, and a
character that does not show on its own by its code point. -/
namespace ScriptMinifier.Text

/-- The letter that stands for a character after a backslash. -/
def escapeLetter? (c : Char) : Option Char :=
  if c = '"' then some '"'
  else if c = '\\' then some '\\'
  else if c = '\n' then some 'n'
  else if c = '\r' then some 'r'
  else if c = '\t' then some 't'
  else if c = mark then some '0'
  else none

/-- A character inside double quotes. -/
def escapedChar (c : Char) : Text :=
  match escapeLetter? c with
  | some letter => ['\\', letter]
  | none =>
    if isPrintable c then [c]
    else "\\u\x7b".toList ++ Nat.toDigits 16 c.toNat ++ ['\x7d']

/-- A text between double quotes. -/
def quoted (t : Text) : Text := '"' :: t.flatMap escapedChar ++ ['"']

end ScriptMinifier.Text
