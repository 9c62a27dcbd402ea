import ScriptMinifier.Text.Decimal

/-! Placeholders.

A literal is kept apart from the text around it: its place is held by its number
between two marks. Reading a number back admits a plus sign and leading zeros, and
refuses numbers that do not fit 64 bits. -/
namespace ScriptMinifier.Literal

open Text (mark)

/-- The placeholder of a literal. -/
def placeholder (id : Nat) : Text := mark :: Text.ofNat id ++ [mark]

/-- The numbers of 64 bits are those below this. -/
def indexLimit : Nat := 0x10000000000000000

/-- A number that fits 64 bits, with an optional plus sign. -/
def readIndex? (t : Text) : Option Nat :=
  (Text.readNat? 10 ((Text.dropStart? ['+'] t).getD t)).filter (· < indexLimit)

/-- The literal a placeholder stands for. -/
def placeholderId? (t : Text) : Option Nat :=
  (Text.dropStart? [mark] t).bind fun inner => (Text.dropEnd? [mark] inner).bind readIndex?

end ScriptMinifier.Literal
