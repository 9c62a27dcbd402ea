import ScriptMinifier.Text.Basic

/-! Whole numbers as text.

A number is written in the fewest decimal digits. Reading takes a base: every
character must be a digit below it, and there must be one. -/
namespace ScriptMinifier.Text

/-- The decimal digits of a number. -/
def ofNat (n : Nat) : Text := Nat.toDigits 10 n

/-- The decimal digits of a number, with a minus sign below zero. -/
def ofInt (n : Int) : Text :=
  if n < 0 then '-' :: ofNat n.natAbs else ofNat n.natAbs

/-- The value of a digit, letters counting on from ten in either case. -/
def digitValue (c : Char) : Nat :=
  if c.isDigit then c.toNat - '0'.toNat
  else if c.isLower then c.toNat - 'a'.toNat + 10
  else if c.isUpper then c.toNat - 'A'.toNat + 10
  else 36

/-- Whether a character is a digit of a base up to 36. -/
def isDigitOf (base : Nat) (c : Char) : Bool := c.isAlphanum && digitValue c < base

/-- The digits of a number read on from what stands before them. -/
def readDigits (base : Nat) (t : Text) (before : Nat) : Nat :=
  t.foldl (fun n c => n * base + digitValue c) before

/-- The number that a non-empty run of digits denotes. -/
def readNat? (base : Nat) (t : Text) : Option Nat :=
  if t ≠ [] ∧ t.all (isDigitOf base) then some (readDigits base t 0) else none

end ScriptMinifier.Text
