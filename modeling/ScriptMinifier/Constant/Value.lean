import ScriptMinifier.Constant.Decimal

/-! Constant values and the operations on them.

Integers have 32 signed bits, and an operation that leaves that range fails. An
operation on an integer and a real takes the integer as a real. Booleans can only be
compared for equality and joined by the logical words. -/
namespace ScriptMinifier.Constant

/-- The value of a constant expression. -/
inductive Value
  | int (n : Int)
  | real (x : Binary32)
  | bool (b : Bool)
deriving DecidableEq, Repr

/-- The operators that compute a number from two. -/
inductive Arithmetic
  | plus | minus | times | divide
deriving DecidableEq, Repr

/-- The operators that compare two values. -/
inductive Comparison
  | equal | unequal | atMost | atLeast | less | greater
deriving DecidableEq, Repr

/-- How an operator is written. -/
def Arithmetic.text : Arithmetic → Text
  | plus => ['+']
  | minus => ['-']
  | times => ['*']
  | divide => ['/']

/-- How a comparison is written. -/
def Comparison.text : Comparison → Text
  | equal => ['=', '=']
  | unequal => ['!', '=']
  | atMost => ['<', '=']
  | atLeast => ['>', '=']
  | less => ['<']
  | greater => ['>']

/-- Why an operation has no value. -/
inductive ValueFault
  | type
  | divisionByZero
  | overflow
deriving DecidableEq, Repr

/-- Whether a number has a signed form of 32 bits. -/
def fitsInt (n : Int) : Bool := -0x80000000 ≤ n && n < 0x80000000

/-- The signed number of 32 bits with the same lowest bits. -/
def wrapInt (n : Nat) : Int := Int.bmod n 0x100000000

namespace Value

/-- An integer result, unless it leaves the range. -/
def ofInt (n : Int) : Except ValueFault Value :=
  if fitsInt n then .ok (.int n) else .error .overflow

/-- A real result, unless it is not finite. -/
def ofReal (x : Binary32) : Except ValueFault Value :=
  if x.isFinite then .ok (.real x) else .error .overflow

def asBool : Value → Except ValueFault Bool
  | bool b => .ok b
  | _ => .error .type

def asReal : Value → Except ValueFault Binary32
  | int n => .ok (.ofInt n)
  | real x => .ok x
  | bool _ => .error .type

/-! ### Arithmetic -/

/-- Arithmetic on integers; a quotient goes toward zero. -/
def calculateInt (op : Arithmetic) (a b : Int) : Except ValueFault Value :=
  match op with
  | .plus => ofInt (a + b)
  | .minus => ofInt (a - b)
  | .times => ofInt (a * b)
  | .divide => if b = 0 then .error .divisionByZero else ofInt (Int.tdiv a b)

/-- Arithmetic on reals. -/
def calculateReal (op : Arithmetic) (x y : Binary32) : Except ValueFault Value :=
  match op with
  | .plus => ofReal (x.add y)
  | .minus => ofReal (x.sub y)
  | .times => ofReal (x.mul y)
  | .divide => if y.isZero then .error .divisionByZero else ofReal (x.div y)

/-- The value of an arithmetic operator between two values. -/
def calculate (op : Arithmetic) (left right : Value) : Except ValueFault Value :=
  match left, right with
  | int a, int b => calculateInt op a b
  | left, right => do calculateReal op (← left.asReal) (← right.asReal)

/-- The value of a minus sign before a value. -/
def negate : Value → Except ValueFault Value
  | int n => ofInt (-n)
  | real x => .ok (.real x.neg)
  | bool _ => .error .type

/-! ### Comparison -/

def compareInt (op : Comparison) (a b : Int) : Bool :=
  match op with
  | .equal => a == b
  | .unequal => a != b
  | .less => a < b
  | .atMost => a ≤ b
  | .greater => b < a
  | .atLeast => b ≤ a

def compareReal (op : Comparison) (x y : Binary32) : Bool :=
  match op with
  | .equal => x.eq y
  | .unequal => !x.eq y
  | .less => x.lt y
  | .atMost => x.le y
  | .greater => y.lt x
  | .atLeast => y.le x

/-- The value of a comparison between two values. -/
def compare (op : Comparison) (left right : Value) : Except ValueFault Value :=
  match left, right with
  | bool a, bool b =>
    match op with
    | .equal => .ok (.bool (a == b))
    | .unequal => .ok (.bool (a != b))
    | _ => .error .type
  | int a, int b => .ok (.bool (compareInt op a b))
  | left, right => do return .bool (compareReal op (← left.asReal) (← right.asReal))

/-! ### Logic

Both sides have been evaluated when they are joined, but the right side is only asked
for its kind when the left side does not settle the result. -/

def disjoin (left right : Value) : Except ValueFault Value := do
  if ← left.asBool then return .bool true else return .bool (← right.asBool)

def conjoin (left right : Value) : Except ValueFault Value := do
  if ← left.asBool then return .bool (← right.asBool) else return .bool false

/-- The value of `not` before a value. -/
def complement (v : Value) : Except ValueFault Value := do return .bool !(← v.asBool)

/-! ### The type of a constant -/

/-- The types whose constants have a value. -/
def isFoldableType (type : Text) : Bool :=
  ["integer".toList, "real".toList, "boolean".toList].contains type

/-- A value as a constant of a type holds it; an integer may stand for a real. -/
def coerce (type : Text) (v : Value) : Except ValueFault Value :=
  match v with
  | int n =>
    if type = "integer".toList then .ok v
    else if type = "real".toList then .ok (.real (.ofInt n))
    else .error .type
  | real _ => if type = "real".toList then .ok v else .error .type
  | bool _ => if type = "boolean".toList then .ok v else .error .type

/-! ### Text -/

/-- A real as program text: it has a point, and no zero stands alone before it. -/
def realText (x : Binary32) : Text :=
  let plain := x.plain
  let pointed := if plain.contains '.' then plain else plain ++ ['.']
  let short := match pointed with
    | '0' :: '.' :: places => '.' :: places
    | '-' :: '0' :: '.' :: places => '-' :: '.' :: places
    | other => other
  if short = ['.'] ∨ short = ['-', '.'] then ['0', '.'] else short

/-- The text of a truth value. -/
def boolText (b : Bool) : Text := if b then "true".toList else "false".toList

/-- A value as program text. -/
def text : Value → Text
  | int n => Text.ofInt n
  | real x => realText x
  | bool b => boolText b

end Value
end ScriptMinifier.Constant
