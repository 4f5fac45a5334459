import Shading.Decimal
import Shading.FloatFormat
import Shading.Number

/-! Reading decimals: `digits`, `digits.digits` and either of them with an exponent. -/
namespace Shading

namespace FloatFormat

/-- The magnitude nearest to `coefficient * 10 ^ exponent`. Powers of ten far outside the range of the
format need no computation. -/
def ofDecimal (F : FloatFormat) (coefficient : Nat) (exponent : Int) : Nat :=
  let point := (Decimal.digitsOf coefficient).length + exponent
  if coefficient = 0 || point < -400 then 0
  else if 400 < point then F.infinity
  else F.roundRatio (coefficient * Decimal.tenPow exponent.toNat) (Decimal.tenPow (-exponent).toNat)

/-- The first 128 bits of a power of ten, the others cut off, and its binary logarithm rounded down. -/
def tenPowBits (exponent : Int) : Nat × Int :=
  let p := Decimal.tenPow exponent.natAbs
  let size := p.log2
  if exponent < 0 then ((1 <<< (128 + size)) / p, -(size + 1 : Nat))
  else (if size < 127 then p <<< (127 - size) else p >>> (size - 127), size)

variable (F : FloatFormat)

/-- The magnitude nearest to `coefficient * 10 ^ exponent` as far as the first 128 bits of the power of
ten tell it. The coefficient is below `2 ^ 64` and not zero. There is no answer if bits that are cut off
may carry into those that are kept, if the product seems to lie in the middle of two numbers of which
the lower is even, or if the number is not a normal one. -/
def nearest? (coefficient : Nat) (exponent : Int) : Option Nat := do
  guard (-348 ≤ exponent && exponent ≤ 347)
  let (power, log) := tenPowBits exponent
  let factor := coefficient <<< (63 - coefficient.log2)
  let tail := 1 <<< (125 - F.fractionBits)
  let short := factor * (power >>> 64)
  let product ←
    if short % tail + factor < tail then some short
    else
      let long := factor * power
      if long % (tail <<< 64) + factor < tail <<< 64 then some (long >>> 64) else none
  let top := product >>> 127
  let significand := product >>> (125 - F.fractionBits + top)
  guard (!(product % tail = 0 && significand % 4 = 1))
  let field := log + coefficient.log2 + top + F.bias
  let magnitude := ((significand + 1) / 2 : Nat) + (field - 1) * (1 <<< F.fractionBits : Nat)
  guard (1 <<< F.fractionBits ≤ magnitude && magnitude < F.infinity)
  return magnitude.toNat

/-- Do the first nineteen digits of a decimal and what is known of the others settle the number that is
nearest to it? -/
def settled (leading : Nat) (exponent : Int) (others : Bool) : Bool :=
  match F.nearest? leading exponent with
  | none => false
  | some x => !others || F.nearest? (leading + 1) exponent == some x

end FloatFormat

namespace Decimal

def isDigit (b : UInt8) : Bool := Text.byte '0' ≤ b && b ≤ Text.byte '9'

def digitValue (b : UInt8) : Nat := (b - Text.byte '0').toNat

/-- The number that some digits spell. -/
def natOf (ds : Text) : Nat := ds.foldl (fun n b => n * 10 + digitValue b) 0

/-- The size of an exponent with the given digits. Only the first five that count are read. -/
def exponentOf (ds : Text) : Nat :=
  ds.foldl (fun e b => if e < 10000 then e * 10 + digitValue b else e) 0

/-- A decimal as it is written: the digits before and after the point, and the exponent. -/
structure Spelling where
  whole : Text
  fraction : Text := []
  exponent : Int := 0

namespace Spelling

/-- How many digits are looked at if the first nineteen do not settle the number. -/
def capacity : Nat := 800

/-- The digits before the point, zeros in front apart. -/
def significant (s : Spelling) : Text := s.whole.dropWhile (· = Text.byte '0')

/-- Do the first nineteen digits settle the number? They stand before the point. -/
def isSettled (F : FloatFormat) (s : Spelling) : Bool :=
  let others := s.significant.drop 19
  F.settled (natOf (s.significant.take 19)) (others.length + s.exponent)
    ((others ++ s.fraction).any (· ≠ Text.byte '0'))

/-- The magnitude of a format nearest to a decimal. Where the first nineteen digits do not settle it,
digits before the point beyond the capacity lose their places. -/
def magnitude (F : FloatFormat) (s : Spelling) : Nat :=
  let coefficient := natOf (s.whole ++ s.fraction)
  let exponent := s.exponent - s.fraction.length
  let lost := s.significant.length - capacity
  if lost = 0 || isSettled F s then F.ofDecimal coefficient exponent
  else F.ofDecimal coefficient (exponent - lost)

end Spelling

/-- An exponent: a mark, a sign that may be missing, and digits. Nothing else may follow. -/
def exponent? : Text → Option Int
  | [] => some 0
  | mark :: rest => do
    guard (mark = Text.byte 'e' || mark = Text.byte 'E')
    let (negative, ds) := match rest with
      | s :: ds => if s = Text.byte '-' then (true, ds) else if s = Text.byte '+' then (false, ds)
        else (false, rest)
      | [] => (false, [])
    guard (!ds.isEmpty && ds.all isDigit)
    return if negative then -(exponentOf ds : Int) else exponentOf ds

/-- Reads an unsigned decimal. -/
def read? (t : Text) : Option Spelling := do
  let whole := t.takeWhile isDigit
  let rest := t.dropWhile isDigit
  let (fraction, rest) := match rest with
    | p :: r => if p = Text.byte '.' then (r.takeWhile isDigit, r.dropWhile isDigit) else ([], rest)
    | [] => ([], [])
  guard (!(whole.isEmpty && fraction.isEmpty))
  return ⟨whole, fraction, ← exponent? rest⟩

end Decimal

end Shading
