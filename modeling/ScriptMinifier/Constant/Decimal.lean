import ScriptMinifier.Constant.Binary32
import ScriptMinifier.Text.Decimal

/-! Reals as decimal text.

A real is written with the fewest digits that read back to it. Those digits stand on
the coarsest decimal grid on which one of the real's two neighbours reads back; of two
such neighbours the nearer is taken, and the upper one on a tie. -/
namespace ScriptMinifier.Constant

/-- Ten to a power. -/
def powerOfTen (n : Nat) : Nat := Nat.pow 10 n

/-- `digits` times ten to the power `exponent`. -/
structure Decimal where
  digits : Nat
  exponent : Int
deriving DecidableEq, Repr

namespace Decimal

/-- A decimal as a fraction. -/
def fraction (d : Decimal) : Nat × Nat :=
  (d.digits * powerOfTen d.exponent.toNat, powerOfTen (-d.exponent).toNat)

/-- The bits, without a sign, of the real nearest to a decimal. -/
def magnitude (d : Decimal) : Nat := magnitudeOf d.fraction.1 d.fraction.2

/-! ### The fewest digits -/

/-- The neighbour of a number of units on the grid of a power of ten that reads back to
the given bits: the nearer one, the upper one on a tie. -/
def onGrid? (units magnitude : Nat) (exponent : Int) : Option Decimal :=
  -- The number of units is `num / den` steps of the grid.
  let num := units * powerOfTen (-exponent).toNat
  let den := unitsPerOne * powerOfTen exponent.toNat
  let lower : Decimal := ⟨num / den, exponent⟩
  let upper : Decimal := ⟨num / den + 1, exponent⟩
  let lowerReads := lower.magnitude == magnitude
  let upperReads := upper.magnitude == magnitude
  if lowerReads && upperReads then if 2 * (num % den) < den then some lower else some upper
  else if lowerReads then some lower
  else if upperReads then some upper
  else none

/-- The exponents of the grids, coarsest first. The last is finer than half the least
distance between reals. -/
def grids : List Int := (List.range 86).map fun (k : Nat) => (38 : Int) - k

/-- The decimal with the fewest digits that reads back to a finite real other than
zero. -/
def shortest (x : Binary32) : Decimal :=
  (grids.findSome? (onGrid? x.units x.magnitude)).getD ⟨x.units * Nat.pow 5 149, -149⟩

/-! ### Layout -/

/-- The whole part and the decimal places of a decimal; there may be no places. -/
def parts (d : Decimal) : Text × Text :=
  let ds := Text.ofNat d.digits
  if 0 ≤ d.exponent then (ds ++ List.replicate d.exponent.toNat '0', [])
  else
    let places := (-d.exponent).toNat
    let padded := List.replicate (places + 1 - ds.length) '0' ++ ds
    (padded.take (padded.length - places), padded.drop (padded.length - places))

/-- The power of ten of the leading digit. -/
def leading (d : Decimal) : Int := d.exponent + (Text.ofNat d.digits).length - 1

/-- A decimal without an exponent; the point stands only before decimal places. -/
def plain (d : Decimal) : Text :=
  let (whole, places) := d.parts
  if places = [] then whole else whole ++ '.' :: places

/-- A decimal with one digit before the point and an exponent. -/
def scientific (d : Decimal) : Text :=
  match Text.ofNat d.digits with
  | [] => []
  | first :: rest =>
    first :: (if rest = [] then [] else '.' :: rest) ++ 'e' :: Text.ofInt d.leading

end Decimal

namespace Binary32

/-- The text of a real: `special` covers the infinities and NaN, `zero` zero, and
`nonzero` all others, without their sign. NaN has no sign. -/
def textWith (zero : Text) (nonzero : Decimal → Text) (x : Binary32) : Text :=
  if x.isNaN then "NaN".toList
  else
    (if x.negative then ['-'] else []) ++
      if x.isInfinite then "inf".toList
      else if x.isZero then zero
      else nonzero (.shortest x)

/-- A real without an exponent. -/
def plain (x : Binary32) : Text := x.textWith ['0'] Decimal.plain

/-- A real with at least one decimal place, and with an exponent when its leading digit
stands below the fourth decimal place or above the sixteenth digit. -/
def detailed (x : Binary32) : Text :=
  x.textWith "0.0".toList fun d =>
    if -4 ≤ d.leading ∧ d.leading < 16 then
      let (whole, places) := d.parts
      whole ++ '.' :: (if places = [] then ['0'] else places)
    else d.scientific

/-- The real that digits before and after a point denote. -/
def ofDigits (whole places : Text) : Binary32 :=
  ofFraction false (Text.readDigits 10 (whole ++ places) 0) (powerOfTen places.length)

end Binary32
end ScriptMinifier.Constant
