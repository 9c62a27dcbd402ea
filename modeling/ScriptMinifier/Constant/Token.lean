import ScriptMinifier.Constant.Value
import ScriptMinifier.Literal.Rawcode
import ScriptMinifier.Literal.Table
import ScriptMinifier.Text.Escaped

/-! The tokens of a constant expression.

The text of an expression is first cut into pieces, which always succeeds; then each
piece is read as a token, and the first piece that is none is the fault. Numbers are
decimal, octal after a zero, or hexadecimal after `$` or `0x`; a placeholder counts as a
number when its literal is a rawcode. -/
namespace ScriptMinifier.Constant

open Text (mark isWordChar isDigitOf)

/-! ### Tokens and faults -/

/-- An element of a constant expression. -/
inductive Token
  | int (n : Int)
  | real (x : Binary32)
  | bool (b : Bool)
  | arithmetic (op : Arithmetic)
  | comparison (op : Comparison)
  | not
  | and
  | or
  | leftParen
  | rightParen
deriving DecidableEq, Repr

/-- A token as messages name it. -/
def Token.name : Token → Text
  | int n => "Int(".toList ++ Text.ofInt n ++ [')']
  | real x => "Real(".toList ++ x.detailed ++ [')']
  | bool b => "Bool(".toList ++ Value.boolText b ++ [')']
  | arithmetic op => "Op(".toList ++ Text.quoted op.text ++ [')']
  | comparison op => "Op(".toList ++ Text.quoted op.text ++ [')']
  | not => "Not".toList
  | and => "And".toList
  | or => "Or".toList
  | leftParen => "LParen".toList
  | rightParen => "RParen".toList

/-- Why an expression has no value. -/
inductive EvalFault
  /-- Digits that do not fit their base, or none where some are needed. -/
  | badDigits (digits : Text)
  /-- A character that starts no token. -/
  | badCharacter (c : Char)
  /-- A token where an operand or a closing parenthesis is needed, or the end. -/
  | unexpected (found : Option Token)
  /-- A name, whose value is not known. -/
  | notConstant (word : Text)
  /-- A placeholder of something other than a rawcode. -/
  | badLiteral
  /-- An operation without a value. -/
  | operation (cause : ValueFault)
  /-- A number that does not fit 32 bits. -/
  | tooLarge
  /-- Tokens after a complete expression. -/
  | trailing
deriving DecidableEq, Repr

namespace EvalFault

/-- The kind of a fault as messages name it. -/
def kind : EvalFault → Text
  | badDigits _ => "Token".toList
  | badCharacter _ => "Token".toList
  | unexpected _ => "Token".toList
  | notConstant _ => "NotConstant".toList
  | badLiteral => "Literal".toList
  | operation .type => "Type".toList
  | operation .divisionByZero => "DivZero".toList
  | operation .overflow => "Overflow".toList
  | tooLarge => "Overflow".toList
  | trailing => "Trailing".toList

/-- What a fault is about, for the kinds that say. -/
def subject? : EvalFault → Option Text
  | badDigits digits => some digits
  | badCharacter c => some [c]
  | unexpected none => some "None".toList
  | unexpected (some token) => some ("Some(".toList ++ token.name ++ [')'])
  | notConstant word => some word
  | _ => none

/-- A fault as messages name it. -/
def name (fault : EvalFault) : Text :=
  match fault.subject? with
  | some subject => fault.kind ++ '(' :: Text.quoted subject ++ [')']
  | none => fault.kind

end EvalFault

/-! ### Pieces -/

/-- What the text of an expression is cut into. -/
inductive Piece
  | placeholder (text : Text)
  | hexadecimal (digits : Text)
  | whole (digits : Text)
  | fraction (whole places : Text)
  | word (text : Text)
  | arithmetic (op : Arithmetic)
  | comparison (op : Comparison)
  | leftParen
  | rightParen
  | unknown (c : Char)
deriving DecidableEq, Repr

/-- The blanks that separate tokens. -/
def isSeparator (c : Char) : Bool :=
  c == ' ' || c == '\t' || c == '\n' || c == '\x0c' || c == '\r'

/-- The symbol that starts a text, and what follows it. The longer of two wins. -/
def symbol (c : Char) (rest : Text) : Piece × Text :=
  match c, rest with
  | '=', '=' :: more => (.comparison .equal, more)
  | '!', '=' :: more => (.comparison .unequal, more)
  | '<', '=' :: more => (.comparison .atMost, more)
  | '>', '=' :: more => (.comparison .atLeast, more)
  | '<', more => (.comparison .less, more)
  | '>', more => (.comparison .greater, more)
  | '+', more => (.arithmetic .plus, more)
  | '-', more => (.arithmetic .minus, more)
  | '*', more => (.arithmetic .times, more)
  | '/', more => (.arithmetic .divide, more)
  | '(', more => (.leftParen, more)
  | ')', more => (.rightParen, more)
  | c, more => (.unknown c, more)

/-- The number that starts a text with a digit or a point, and what follows it. -/
def number (t : Text) : Piece × Text :=
  let digits := t.takeWhile Char.isDigit
  match t.dropWhile Char.isDigit with
  | '.' :: more => (.fraction digits (more.takeWhile Char.isDigit), more.dropWhile Char.isDigit)
  | more => (.whole digits, more)

/-- The first piece of a text that starts with `c`, which is no separator, and what
follows it. -/
def piece (c : Char) (rest : Text) : Piece × Text :=
  if c = mark then (.placeholder (c :: Text.throughMark rest), Text.afterMark rest)
  else if c = '$' then
    (.hexadecimal (rest.takeWhile (isDigitOf 16)), rest.dropWhile (isDigitOf 16))
  else if c = '0' ∧ (rest.head? = some 'x' ∨ rest.head? = some 'X') then
    let more := rest.drop 1
    (.hexadecimal (more.takeWhile (isDigitOf 16)), more.dropWhile (isDigitOf 16))
  else if c.isDigit ∨ (c = '.' ∧ rest.head?.any Char.isDigit) then number (c :: rest)
  else if c.isAlpha ∨ c = '_' then
    (.word (c :: rest.takeWhile isWordChar), rest.dropWhile isWordChar)
  else symbol c rest

theorem length_symbol_le (c : Char) (rest : Text) : (symbol c rest).2.length ≤ rest.length := by
  unfold symbol
  split <;> simp

theorem length_number_le (c : Char) (rest : Text) (h : c.isDigit ∨ c = '.') :
    (number (c :: rest)).2.length ≤ rest.length := by
  by_cases hd : c.isDigit
  · have hle := Text.length_dropWhile_le Char.isDigit rest
    simp only [number, List.dropWhile_cons_of_pos hd]
    split
    · rename_i more heq
      have := Text.length_dropWhile_le Char.isDigit more
      rw [heq, List.length_cons] at hle
      simp only
      omega
    · exact hle
  · have hc : c = '.' := h.resolve_left hd
    subst hc
    have := Text.length_dropWhile_le Char.isDigit rest
    rw [number, List.dropWhile_cons_of_neg hd]
    exact this

/-- A piece takes at least one character. -/
theorem length_piece_le (c : Char) (rest : Text) : (piece c rest).2.length ≤ rest.length := by
  unfold piece
  split
  · exact Text.length_afterMark_le rest
  · split
    · exact Text.length_dropWhile_le _ rest
    · split
      · have := Text.length_dropWhile_le (isDigitOf 16) (rest.drop 1)
        simp only [List.length_drop] at this ⊢
        omega
      · split
        · rename_i h
          exact length_number_le c rest (h.imp id And.left)
        · split
          · exact Text.length_dropWhile_le _ rest
          · exact length_symbol_le c rest

/-- The pieces of a text, in order. -/
def piecesOf : Text → List Piece
  | [] => []
  | c :: rest =>
    if isSeparator c then piecesOf rest
    else (piece c rest).1 :: piecesOf (piece c rest).2
termination_by t => t.length
decreasing_by
  · exact Nat.lt_succ_self _
  · exact Nat.lt_succ_of_le (length_piece_le c rest)

/-! ### Reading pieces -/

/-- The integer that digits of a base denote. A number up to 2 to the power 32 takes the
signed value of the same bits. Only the first twelve digits are held against the base,
and no more than twelve are taken. -/
def readInt (base : Nat) (digits : Text) : Except EvalFault Int :=
  match Text.readNat? base (digits.take 12) with
  | none => .error (.badDigits digits)
  | some n => if digits.length > 12 ∨ n ≥ 0x100000000 then .error .tooLarge else .ok (wrapInt n)

/-- The base of a number: a zero before other digits makes it octal. -/
def baseOf (digits : Text) : Nat := if digits.length > 1 ∧ digits.head? = some '0' then 8 else 10

/-- The token that a word is. -/
def wordToken (w : Text) : Except EvalFault Token :=
  if w = "true".toList then .ok (.bool true)
  else if w = "false".toList then .ok (.bool false)
  else if w = "not".toList then .ok .not
  else if w = "and".toList then .ok .and
  else if w = "or".toList then .ok .or
  else .error (.notConstant w)

/-- The token that a piece is. -/
def Piece.token (ls : Literals) : Piece → Except EvalFault Token
  | placeholder t =>
    match (ls.lookup? t).bind Literal.rawcodeValue? with
    | some n => .ok (.int (wrapInt n))
    | none => .error .badLiteral
  | hexadecimal digits => (readInt 16 digits).map .int
  | whole digits => (readInt (baseOf digits) digits).map .int
  | fraction digits places => .ok (.real (.ofDigits digits places))
  | word w => wordToken w
  | arithmetic op => .ok (.arithmetic op)
  | comparison op => .ok (.comparison op)
  | leftParen => .ok .leftParen
  | rightParen => .ok .rightParen
  | unknown c => .error (.badCharacter c)

/-- The tokens of an expression. -/
def tokens (ls : Literals) (t : Text) : Except EvalFault (List Token) :=
  (piecesOf t).mapM (Piece.token ls)

end ScriptMinifier.Constant
