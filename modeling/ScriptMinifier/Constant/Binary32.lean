/-! Reals of 32 bits.

A real is a sign, an exponent of 8 bits and a fraction of 23 bits. Every finite one is
a whole number of units of 2 to the power −149, so sums, products and quotients are
exact fractions that are rounded once, to the nearest real and on a tie to the one with
an even last bit (`magnitudeOf`). -/
namespace ScriptMinifier.Constant

/-! ### Rounding a fraction -/

/-- The whole number nearest to a fraction, the even one on a tie. -/
def roundEven (num den : Nat) : Nat :=
  let q := num / den
  let r := num % den
  if 2 * r < den then q
  else if den < 2 * r then q + 1
  else q + q % 2

/-- The units in which reals are whole numbers: how many of them make one. -/
def unitsPerOne : Nat := Nat.pow 2 149

/-- The weight of the last bit of the exponent: the fraction has 23 bits. -/
def exponentUnit : Nat := 0x800000

/-- The weight of the sign bit. -/
def signUnit : Nat := 0x80000000

/-- The bits of infinity, without a sign. -/
def infinityBits : Nat := 0x7f800000

/-- The bits, without a sign, of the real nearest to a fraction. A fraction of many
units is rounded at its 24th significant bit; `shift` is how many bits fall away. -/
def magnitudeOf (num den : Nat) : Nat :=
  let shift := (num * unitsPerOne / den).log2 - 23
  min (shift * exponentUnit + roundEven (num * unitsPerOne) (den * Nat.pow 2 shift)) infinityBits

/-! ### Reals -/

/-- A real of 32 bits. -/
structure Binary32 where
  bits : UInt32
deriving DecidableEq, Repr

namespace Binary32

/-- Whether the sign bit is set. -/
def negative (x : Binary32) : Bool := signUnit ≤ x.bits.toNat

/-- The bits without the sign. -/
def magnitude (x : Binary32) : Nat := x.bits.toNat % signUnit

/-- The real of a sign and the bits without it. -/
def ofMagnitude (negative : Bool) (magnitude : Nat) : Binary32 :=
  ⟨UInt32.ofNat ((if negative then signUnit else 0) + magnitude)⟩

/-- Infinity. -/
def infinity (negative : Bool) : Binary32 := ofMagnitude negative infinityBits

/-- What an operation without a result gives. -/
def nan : Binary32 := ⟨0x7fc00000⟩

def isFinite (x : Binary32) : Bool := x.magnitude < infinityBits

def isInfinite (x : Binary32) : Bool := x.magnitude == infinityBits

def isNaN (x : Binary32) : Bool := infinityBits < x.magnitude

def isZero (x : Binary32) : Bool := x.magnitude == 0

/-- How many units a finite real has, without its sign. -/
def units (x : Binary32) : Nat :=
  let exponent := x.magnitude / exponentUnit
  let fraction := x.magnitude % exponentUnit
  if exponent = 0 then fraction else (exponentUnit + fraction) * Nat.pow 2 (exponent - 1)

/-- How many units a finite real has, with its sign. -/
def signedUnits (x : Binary32) : Int := if x.negative then -(x.units : Int) else x.units

/-- The real nearest to a fraction. -/
def ofFraction (negative : Bool) (num den : Nat) : Binary32 :=
  ofMagnitude negative (magnitudeOf num den)

/-- The real nearest to a whole number. -/
def ofInt (n : Int) : Binary32 := ofFraction (n < 0) n.natAbs 1

/-! ### Arithmetic -/

def neg (x : Binary32) : Binary32 := ofMagnitude (!x.negative) x.magnitude

/-- Sum. A sum of zero is negative only if both terms are. -/
def add (x y : Binary32) : Binary32 :=
  if x.isNaN || y.isNaN then nan
  else if x.isInfinite && y.isInfinite then if x.negative = y.negative then x else nan
  else if x.isInfinite then x
  else if y.isInfinite then y
  else
    let sum := x.signedUnits + y.signedUnits
    let negative := if sum = 0 then x.negative && y.negative else sum < 0
    ofFraction negative sum.natAbs unitsPerOne

/-- Difference. -/
def sub (x y : Binary32) : Binary32 := add x (if y.isNaN then y else neg y)

/-- Product. -/
def mul (x y : Binary32) : Binary32 :=
  let negative := x.negative != y.negative
  if x.isNaN || y.isNaN then nan
  else if x.isInfinite || y.isInfinite then
    if x.isZero || y.isZero then nan else infinity negative
  else ofFraction negative (x.units * y.units) (unitsPerOne * unitsPerOne)

/-- Quotient. -/
def div (x y : Binary32) : Binary32 :=
  let negative := x.negative != y.negative
  if x.isNaN || y.isNaN then nan
  else if x.isInfinite then if y.isInfinite then nan else infinity negative
  else if y.isInfinite then ofMagnitude negative 0
  else if y.isZero then if x.isZero then nan else infinity negative
  else ofFraction negative x.units y.units

/-! ### Comparison -/

/-- The place of a real among all but NaN; both zeros have the same. -/
def place (x : Binary32) : Int := if x.negative then -(x.magnitude : Int) else x.magnitude

def eq (x y : Binary32) : Bool := !x.isNaN && !y.isNaN && x.place == y.place

def lt (x y : Binary32) : Bool := !x.isNaN && !y.isNaN && x.place < y.place

def le (x y : Binary32) : Bool := !x.isNaN && !y.isNaN && x.place ≤ y.place

end Binary32
end ScriptMinifier.Constant
