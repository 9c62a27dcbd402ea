import ScriptMinifier.Literal.Rawcode
import ScriptMinifier.Text.Decimal
import ScriptMinifier.Text.Segment

/-! Shorter numerals.

A hexadecimal numeral is written in decimal, and a number of more than six digits as a
rawcode where it has one. Octal numerals and the digits of reals stay as they are. -/
namespace ScriptMinifier.Output

open Text (Segment)

/-- The largest number that is not written as a rawcode. -/
def decimalLimit : Nat := 999999

/-- A number as program text. -/
def numeral (n : Nat) : Text :=
  if decimalLimit < n then (Literal.rawcode? n).getD (Text.ofNat n) else Text.ofNat n

/-- The number that hexadecimal digits denote, if it is a positive integer of the
language. -/
def hexValue? (digits : Text) : Option Nat := (Text.readNat? 16 digits).filter (· < 0x80000000)

/-- A word that starts with a digit, made short; `before` and `after` are the characters
around it. -/
def shortenNumber (before after : Option Char) (w : Text) : Text :=
  match w with
  | '0' :: 'x' :: digits => ((hexValue? digits).map numeral).getD w
  | '0' :: 'X' :: digits => ((hexValue? digits).map numeral).getD w
  | '0' :: _ => w
  | w =>
    if before = some '.' ∨ after = some '.' then w
    else ((Text.readNat? 10 w).map numeral).getD w

/-- A word with its numeral made short. -/
def shortenWord (before after : Option Char) (w : Text) : Text :=
  if w.head?.any Char.isDigit then shortenNumber before after w else w

/-- The character that follows in a list of segments. -/
def nextChar (segments : List Segment) : Option Char := segments.head?.bind (·.text.head?)

/-- Segments with their numerals made short; `before` is the character before them. A
dollar sign goes with the hexadecimal digits after it. -/
def shortenSegments (before : Option Char) : List Segment → Text
  | [] => []
  | .other t :: .word w :: rest =>
    if t.getLast? = some '$' then
      (match hexValue? w with
        | some n => t.dropLast ++ numeral n
        | none => t ++ w) ++ shortenSegments w.getLast? rest
    else t ++ shortenWord t.getLast? (nextChar rest) w ++ shortenSegments w.getLast? rest
  | .word w :: rest => shortenWord before (nextChar rest) w ++ shortenSegments w.getLast? rest
  | s :: rest => s.text ++ shortenSegments s.text.getLast? rest

/-- A text with its numerals made short. -/
def shortenNumerals (t : Text) : Text := shortenSegments none (Text.segments t)

end ScriptMinifier.Output
