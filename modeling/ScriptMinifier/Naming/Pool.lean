import ScriptMinifier.Syntax.Datatype

/-! Pools of short names.

A pool deals names from an endless sequence of candidates whose lengths never fall. All
candidates of up to three characters that a scheme wants come first, pattern by pattern;
longer ones follow, length by length. Global names have an upper-case letter and local
names have none, so the two never meet. A reserved candidate is passed over. -/
namespace ScriptMinifier.Naming

/-! ### Patterns -/

def uppers : List Char := "ABCDEFGHIJKLMNOPQRSTUVWXYZ".toList

def lowers : List Char := "abcdefghijklmnopqrstuvwxyz".toList

def digits : List Char := "0123456789".toList

/-- The characters that may stand at each position of a name. -/
abbrev Pattern := List (List Char)

/-- How many names a pattern has. -/
def capacity : Pattern → Nat
  | [] => 1
  | chars :: rest => chars.length * capacity rest

/-- The names of a pattern by number, the last position running fastest. -/
def spell : Pattern → Nat → Text
  | [], _ => []
  | chars :: rest, n => chars.getD (n / capacity rest % chars.length) 'a' :: spell rest n

/-! ### Schemes -/

/-- The two kinds of names. -/
inductive Scheme
  | globals
  | locals
deriving DecidableEq, Repr

namespace Scheme

/-- The patterns of names of up to three characters. -/
def patterns : Scheme → List Pattern
  | globals => [
      [uppers],
      [uppers, uppers], [lowers, uppers], [uppers, lowers], [uppers, digits],
      [uppers, uppers, uppers], [uppers, lowers, lowers], [uppers, uppers, lowers],
      [uppers, uppers, digits], [uppers, digits, digits], [uppers, digits, uppers],
      [lowers, uppers, uppers], [lowers, lowers, uppers], [lowers, uppers, lowers],
      [lowers, uppers, digits]]
  | locals => [
      [lowers],
      [lowers, lowers], [lowers, digits],
      [lowers, lowers, lowers], [lowers, lowers, digits], [lowers, digits, digits],
      [lowers, digits, lowers]]

/-- The letters of a scheme. -/
def letters : Scheme → List Char
  | globals => uppers ++ lowers
  | locals => lowers

/-- The pattern of names of more characters. -/
def longPattern (s : Scheme) (length : Nat) : Pattern :=
  s.letters :: List.replicate (length - 1) (s.letters ++ digits)

/-- Whether a candidate is a name of the scheme. -/
def admits : Scheme → Text → Bool
  | globals, name => name.any Char.isUpper
  | locals, _ => true

theorem letters_length_pos (s : Scheme) : 0 < s.letters.length := by
  cases s <;> decide +kernel

theorem capacity_replicate_pos (chars : List Char) (h : 0 < chars.length) (n : Nat) :
    0 < capacity (List.replicate n chars) := by
  induction n with
  | zero => exact Nat.one_pos
  | succ n ih => exact Nat.mul_pos h ih

theorem capacity_longPattern_pos (s : Scheme) (length : Nat) :
    0 < capacity (s.longPattern length) := by
  refine Nat.mul_pos s.letters_length_pos (capacity_replicate_pos _ ?_ _)
  rw [List.length_append]
  exact Nat.add_pos_left s.letters_length_pos _

end Scheme

/-! ### Candidates -/

/-- The names of a length and of the lengths after it, by number. -/
def longName (s : Scheme) (length n : Nat) : Text :=
  if n < capacity (s.longPattern length) then spell (s.longPattern length) n
  else longName s (length + 1) (n - capacity (s.longPattern length))
termination_by n
decreasing_by
  have := s.capacity_longPattern_pos length
  omega

/-- The names of some patterns, and after them the long ones, by number. -/
def nameFrom (s : Scheme) : List Pattern → Nat → Text
  | [], n => longName s 4 n
  | p :: rest, n => if n < capacity p then spell p n else nameFrom s rest (n - capacity p)

/-- The candidates of a scheme by number. -/
def candidate (s : Scheme) (n : Nat) : Text := nameFrom s s.patterns n

/-! ### Pools -/

/-- A pool has dealt or passed over all candidates before `next`. -/
structure Pool where
  scheme : Scheme
  next : Nat := 0
  /-- The names that must not be dealt. -/
  reserved : List Text := Syntax.keywords ++ Syntax.datatypes
deriving DecidableEq, Repr

namespace Pool

/-- The pool of a scheme, with the words of the language reserved. -/
def new (scheme : Scheme) : Pool := { scheme }

def isReserved (pool : Pool) (name : Text) : Bool := pool.reserved.contains name

/-- The pool with more names reserved. -/
def reserve (pool : Pool) (names : List Text) : Pool :=
  { pool with reserved := names ++ pool.reserved }

/-- Whether a candidate may be dealt. -/
def isFree (pool : Pool) (name : Text) : Bool := pool.scheme.admits name && !pool.isReserved name

/-- The number of the first free candidate from `n` on, among as many as given. -/
def search (pool : Pool) : Nat → Nat → Nat
  | 0, n => n
  | tries + 1, n =>
    if pool.isFree (candidate pool.scheme n) then n else pool.search tries (n + 1)

/-- More candidates than can be passed over in a row. Of any 62 in a row one is a name of
the scheme, and each reserved name is passed over once. -/
def tries (pool : Pool) : Nat := 62 * (pool.reserved.length + 1)

/-- The number of the candidate to be dealt next. -/
def nextFree (pool : Pool) : Nat := pool.search pool.tries pool.next

/-- The name to be dealt next. -/
def peek (pool : Pool) : Text := candidate pool.scheme pool.nextFree

/-- Deals a name. -/
def draw (pool : Pool) : Text × Pool :=
  let n := pool.nextFree
  (candidate pool.scheme n, { pool with next := n + 1 })

/-- The pool after a number of names have been dealt. -/
def skip (pool : Pool) : Nat → Pool
  | 0 => pool
  | n + 1 => pool.draw.2.skip n

/-- Deals a number of names. -/
def drawMany (pool : Pool) : Nat → List Text × Pool
  | 0 => ([], pool)
  | n + 1 =>
    let (name, pool') := pool.draw
    let (names, pool'') := pool'.drawMany n
    (name :: names, pool'')

/-- Deals a name for each item of a list. -/
def deal (pool : Pool) (items : List Text) : List (Text × Text) × Pool :=
  let (names, pool') := pool.drawMany items.length
  (items.zip names, pool')

end Pool
end ScriptMinifier.Naming
