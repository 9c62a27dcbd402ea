import ScriptMinifier.Constant.Token

/-! The value of a constant expression.

Operators bind in this order, loosest first: `or`, `and`, `not`, one comparison, sums,
products, signs. Binary operators of a level group to the left, and a comparison takes
no further comparison. An operation is carried out as soon as its operands are known,
so the first fault from the left is the one that is told. -/
namespace ScriptMinifier.Constant

/-- How tightly operators bind, loosest first. -/
inductive Precedence
  | disjunction
  | conjunction
  | negation
  | comparison
  | sum
  | product
  | sign
deriving DecidableEq, Repr

/-- A value and the tokens that follow its expression. -/
abbrev Evaluation := Except EvalFault (Value × List Token)

/-- The result of an operation, with the tokens that follow. -/
def settled (rest : List Token) (result : Except ValueFault Value) : Evaluation :=
  match result with
  | .ok v => .ok (v, rest)
  | .error cause => .error (.operation cause)

mutual

/-- The value of the longest expression of a level at the start of the tokens. The
number bounds the depth of the descent. -/
def evalAt : Nat → Precedence → List Token → Evaluation
  | 0, _, ts => .error (.unexpected ts.head?)
  | depth + 1, .disjunction, ts => do
    let (v, rest) ← evalAt depth .conjunction ts
    evalOn depth .disjunction v rest
  | depth + 1, .conjunction, ts => do
    let (v, rest) ← evalAt depth .negation ts
    evalOn depth .conjunction v rest
  | depth + 1, .negation, ts =>
    match ts with
    | .not :: more => do
      let (v, rest) ← evalAt depth .negation more
      settled rest v.complement
    | ts => evalAt depth .comparison ts
  | depth + 1, .comparison, ts => do
    let (v, rest) ← evalAt depth .sum ts
    match rest with
    | .comparison op :: more => do
      let (w, rest) ← evalAt depth .sum more
      settled rest (Value.compare op v w)
    | rest => .ok (v, rest)
  | depth + 1, .sum, ts => do
    let (v, rest) ← evalAt depth .product ts
    evalOn depth .sum v rest
  | depth + 1, .product, ts => do
    let (v, rest) ← evalAt depth .sign ts
    evalOn depth .product v rest
  | depth + 1, .sign, ts =>
    match ts with
    | .arithmetic .minus :: more => do
      let (v, rest) ← evalAt depth .sign more
      settled rest v.negate
    | .arithmetic .plus :: more => evalAt depth .sign more
    | .int n :: rest => .ok (.int n, rest)
    | .real x :: rest => .ok (.real x, rest)
    | .bool b :: rest => .ok (.bool b, rest)
    | .leftParen :: more => do
      let (v, rest) ← evalAt depth .disjunction more
      match rest with
      | .rightParen :: rest => .ok (v, rest)
      | rest => .error (.unexpected rest.head?)
    | ts => .error (.unexpected ts.head?)

/-- The value of an expression of a level that goes on after a first operand. -/
def evalOn : Nat → Precedence → Value → List Token → Evaluation
  | depth + 1, .disjunction, v, .or :: more => do
    let (w, rest) ← evalAt depth .conjunction more
    let (u, rest) ← settled rest (v.disjoin w)
    evalOn depth .disjunction u rest
  | depth + 1, .conjunction, v, .and :: more => do
    let (w, rest) ← evalAt depth .negation more
    let (u, rest) ← settled rest (v.conjoin w)
    evalOn depth .conjunction u rest
  | depth + 1, .sum, v, .arithmetic .plus :: more => do
    let (w, rest) ← evalAt depth .product more
    let (u, rest) ← settled rest (Value.calculate .plus v w)
    evalOn depth .sum u rest
  | depth + 1, .sum, v, .arithmetic .minus :: more => do
    let (w, rest) ← evalAt depth .product more
    let (u, rest) ← settled rest (Value.calculate .minus v w)
    evalOn depth .sum u rest
  | depth + 1, .product, v, .arithmetic .times :: more => do
    let (w, rest) ← evalAt depth .sign more
    let (u, rest) ← settled rest (Value.calculate .times v w)
    evalOn depth .product u rest
  | depth + 1, .product, v, .arithmetic .divide :: more => do
    let (w, rest) ← evalAt depth .sign more
    let (u, rest) ← settled rest (Value.calculate .divide v w)
    evalOn depth .product u rest
  | _, _, v, rest => .ok (v, rest)

end

/-- A depth that no expression of some tokens exceeds: every token is reached through at
most one step of each level. -/
def depthFor (ts : List Token) : Nat := 8 * (ts.length + 1)

/-- The value of a list of tokens that is one expression. -/
def evalTokens (ts : List Token) : Except EvalFault Value := do
  let (v, rest) ← evalAt (depthFor ts) .disjunction ts
  if rest = [] then return v else throw .trailing

/-- The value of an expression. -/
def eval (ls : Literals) (t : Text) : Except EvalFault Value := do
  evalTokens (← tokens ls t)

/-- The value of an expression as a constant of a type holds it. -/
def evalAs (ls : Literals) (type t : Text) : Except EvalFault Value := do
  match (← eval ls t).coerce type with
  | .ok v => return v
  | .error cause => throw (.operation cause)

end ScriptMinifier.Constant
