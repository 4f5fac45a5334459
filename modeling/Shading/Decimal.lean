import Shading.FloatFormat
import Shading.Text

/-! Positive decimals as digits and a point, and the notation in which they are written. -/
namespace Shading

/-- The decimal `0.d₁d₂… * 10 ^ point` with the given digits. -/
structure Decimal where
  digits : List Nat
  point : Int
deriving DecidableEq, Repr

namespace Decimal

/-- The power of ten with an exponent. -/
def tenPow (exponent : Nat) : Nat := Nat.pow 10 exponent

/-- The digits of a number, most significant first; zero has none. -/
def digitsOf (n : Nat) : List Nat :=
  if n = 0 then [] else (Nat.toDigits 10 n).map fun c => c.toNat - '0'.toNat

def dropTrailingZeros (ds : List Nat) : List Nat := (ds.reverse.dropWhile (· == 0)).reverse

/-- The decimal `coefficient * 10 ^ exponent` without trailing zeros. -/
def ofScaled (coefficient : Nat) (exponent : Int) : Decimal :=
  let ds := digitsOf coefficient
  ⟨dropTrailingZeros ds, ds.length + exponent⟩

def digitText (ds : List Nat) : Text := ds.map fun d => Text.byte '0' + d.toUInt8

/-- Point notation: as many zeros as the point needs, and no digit after the point if none is left. -/
def positional (d : Decimal) : Text :=
  if d.point ≤ 0 then
    "0." ++ Text.times (-d.point).toNat "0" ++ digitText d.digits
  else
    let whole := d.point.toNat
    let front := digitText (d.digits.take whole) ++ Text.times (whole - d.digits.length) "0"
    let back := d.digits.drop whole
    if back.isEmpty then front else front ++ "." ++ digitText back

/-- One digit before the point, and an exponent with a sign and at least two digits. -/
def scientific (d : Decimal) : Text :=
  let exponent := d.point - 1
  let back := d.digits.drop 1
  let sign : Text := if exponent < 0 then "-" else "+"
  let size := Text.ofNat exponent.natAbs
  let fraction : Text := if back.isEmpty then [] else "." ++ digitText back
  let padding : Text := if size.length < 2 then "0" else []
  digitText (d.digits.take 1) ++ fraction ++ "e" ++ sign ++ padding ++ size

/-- Which exponents are written in point notation. -/
structure Style where
  least : Int
  bound : Int

/-- Exponents from -4 up to 5 are written in point notation. -/
def general : Style := ⟨-4, 6⟩

def write (n : Style) (d : Decimal) : Text :=
  if d.digits.isEmpty then "0"
  else if n.least ≤ d.point - 1 && d.point - 1 < n.bound then d.positional
  else d.scientific

end Decimal

end Shading

-- The shortest decimal that rounds to a given binary number, and of those the nearest.
namespace Shading.Decimal.Shortest

/-- The reals that round to a positive number, in quarters of its last place. -/
structure Interval where
  /-- the unit is a power of two -/
  unit : Int
  low : Nat
  value : Nat
  high : Nat
  /-- do the ends round to the number too? -/
  closed : Bool

/-- The interval around `significand * 2 ^ exponent`. Below a power of two the neighbour is half as
far away, unless the exponent is the least one. -/
def interval (F : FloatFormat) (significand : Nat) (exponent : Int) : Interval where
  unit := exponent - 2
  low := if significand = 1 <<< F.fractionBits && F.leastExponent < exponent
    then 4 * significand - 1 else 4 * significand - 2
  value := 4 * significand
  high := 4 * significand + 2
  closed := significand % 2 = 0

/-- Compares `coefficient * 10 ^ scale` with a number of units. -/
def against (unit : Int) (scale : Int) (coefficient count : Nat) : Ordering :=
  compare (coefficient * tenPow scale.toNat <<< (-unit).toNat)
    (count <<< unit.toNat * tenPow (-scale).toNat)

def Interval.holds (i : Interval) (scale : Int) (coefficient : Nat) : Bool :=
  match against i.unit scale coefficient i.low, against i.unit scale coefficient i.high with
  | .gt, .lt => true
  | .eq, _ | _, .eq => i.closed
  | _, _ => false

/-- The coefficient of the greatest multiple of `10 ^ scale` that is not above the value. -/
def Interval.floor (i : Interval) (scale : Int) : Nat :=
  i.value <<< i.unit.toNat * tenPow (-scale).toNat / tenPow scale.toNat <<< (-i.unit).toNat

/-- The exponent of the value's leading decimal digit. -/
def Interval.magnitude (i : Interval) : Int :=
  let num := i.value <<< i.unit.toNat
  let den := 1 <<< (-i.unit).toNat
  if den ≤ num then (digitsOf (num / den)).length - 1
  else
    let n := (digitsOf (den / num)).length
    if den = num * tenPow (n - 1) then 1 - (n : Int) else -(n : Int)

/-- Of the value's two neighbours on a decimal grid, the one inside the interval; the nearer one if
both are, and the even one if they are equally near. -/
def Interval.pick (i : Interval) (scale : Int) : Option Nat :=
  let down := i.floor scale
  match i.holds scale down, i.holds scale (down + 1) with
  | true, true =>
    match against (i.unit - 1) scale (2 * down + 1) (4 * i.value) with
    | .gt => some down
    | .lt => some (down + 1)
    | .eq => some (if down % 2 = 0 then down else down + 1)
  | true, false => some down
  | false, true => some (down + 1)
  | false, false => none

/-- The first grid with a point in the interval, from coarse to fine. -/
def Interval.search (i : Interval) (magnitude : Int) : (tries digits : Nat) → Decimal
  | 0, digits => ofScaled (i.floor (magnitude + 1 - digits)) (magnitude + 1 - digits)
  | tries + 1, digits =>
    match i.pick (magnitude + 1 - digits) with
    | some c => ofScaled c (magnitude + 1 - digits)
    | none => i.search magnitude tries (digits + 1)

/-- The shortest decimal that rounds to a positive number. Seventeen digits are always enough for the
formats used here. -/
def shortest (F : FloatFormat) (significand : Nat) (exponent : Int) : Decimal :=
  let i := interval F significand exponent
  i.search i.magnitude 17 1

end Shading.Decimal.Shortest
