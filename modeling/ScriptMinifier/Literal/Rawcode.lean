import ScriptMinifier.Text.Basic

/-! Rawcodes: integers spelt in characters.

A rawcode is one or four characters between single quotes, read as the digits of a
number in base 256, most significant first. Digits are bytes, so a character beyond
ASCII counts as several; a backslash escapes a few control characters, a quote and
itself. Writing uses four plain printable characters and no escapes. -/
namespace ScriptMinifier.Literal

/-! ### Reading -/

/-- Whether a literal stands between single quotes. -/
def isRawcode (lit : Text) : Bool :=
  2 ≤ lit.length && lit.head? == some '\'' && lit.getLast? == some '\''

/-- The byte that an escaped character denotes. -/
def escapedByte? (b : UInt8) : Option UInt8 :=
  if b = 0x5c then some 0x5c        -- backslash
  else if b = 0x27 then some 0x27   -- single quote
  else if b = 0x22 then some 0x22   -- double quote
  else if b = 0x6e then some 0x0a   -- n
  else if b = 0x72 then some 0x0d   -- r
  else if b = 0x74 then some 0x09   -- t
  else if b = 0x62 then some 0x08   -- b
  else if b = 0x66 then some 0x0c   -- f
  else none

/-- The digits that the bytes of a rawcode spell; none when an escape is unknown. -/
def unescape? : List UInt8 → Option (List UInt8)
  | [] => some []
  | [b] => if b = 0x5c then none else some [b]
  | b :: c :: rest =>
    if b = 0x5c then (escapedByte? c).bind fun digit => (unescape? rest).map (digit :: ·)
    else (unescape? (c :: rest)).map (b :: ·)

/-- The number that digits of base 256 denote. -/
def pack (digits : List UInt8) : Nat := digits.foldl (fun n digit => n * 256 + digit.toNat) 0

/-- The integer of a rawcode of one or four digits, quotes included. -/
def rawcodeValue? (lit : Text) : Option Nat :=
  if isRawcode lit then
    (unescape? (Text.bytes (lit.drop 1).dropLast)).bind fun digits =>
      if digits.length = 1 ∨ digits.length = 4 then some (pack digits) else none
  else none

/-! ### Writing -/

/-- Whether a digit has a plain printable form: visible ASCII, no quote and no
backslash. -/
def isPlainDigit (n : Nat) : Bool :=
  0x21 ≤ n && n ≤ 0x7e && n != 0x27 && n != 0x22 && n != 0x5c

/-- The four lowest digits of base 256, most significant first. -/
def fourDigits (n : Nat) : List Nat :=
  [n / 16777216 % 256, n / 65536 % 256, n / 256 % 256, n % 256]

/-- The rawcode of a signed 32-bit integer that is not negative, when all its four
digits have a plain form. -/
def rawcode? (value : Int) : Option Text :=
  if 0 ≤ value ∧ value < 0x80000000 ∧ (fourDigits value.toNat).all isPlainDigit then
    some ('\'' :: (fourDigits value.toNat).map Char.ofNat ++ ['\''])
  else none

end ScriptMinifier.Literal
