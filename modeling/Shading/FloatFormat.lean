/-! Binary floating-point formats: unpacking bit patterns and rounding exact quotients to them. -/
namespace Shading

/-- A binary interchange format, given by the widths of its fraction and exponent fields. -/
structure FloatFormat where
  fractionBits : Nat
  exponentBits : Nat
deriving DecidableEq, Repr

/-- What a bit pattern stands for. A finite datum is `significand * 2 ^ exponent` with a sign. -/
inductive FloatDatum
  | nan (negative : Bool) (fraction : Nat)
  | infinite (negative : Bool)
  | finite (negative : Bool) (significand : Nat) (exponent : Int)
deriving DecidableEq, Repr

namespace FloatFormat

def single : FloatFormat := ⟨23, 8⟩
def double : FloatFormat := ⟨52, 11⟩

variable (F : FloatFormat)

def bias : Nat := 1 <<< (F.exponentBits - 1) - 1

/-- The exponent of the least positive number. -/
def leastExponent : Int := 1 - (F.bias : Int) - F.fractionBits

/-- One more than the greatest magnitude, which is where the sign bit stands. -/
def signBit : Nat := 1 <<< (F.fractionBits + F.exponentBits)

/-- The magnitude of the infinities. -/
def infinity : Nat := (1 <<< F.exponentBits - 1) <<< F.fractionBits

/-- The leading bit of the fraction, which tells quiet NaNs from signalling ones. -/
def quietBit : Nat := 1 <<< (F.fractionBits - 1)

def withSign (negative : Bool) (magnitude : Nat) : Nat :=
  if negative then F.signBit + magnitude else magnitude

/-- Reads a bit pattern. -/
def unpack (bits : Nat) : FloatDatum :=
  let negative := bits / F.signBit % 2 == 1
  let fraction := bits % 1 <<< F.fractionBits
  let field := bits >>> F.fractionBits % 1 <<< F.exponentBits
  if field = 1 <<< F.exponentBits - 1 then
    if fraction = 0 then .infinite negative else .nan negative fraction
  else if field = 0 then .finite negative fraction F.leastExponent
  else .finite negative (1 <<< F.fractionBits + fraction) (F.leastExponent + (field - 1 : Nat))

/-- The quotient rounded to the nearest integer, a half going to the even neighbour. -/
def roundDiv (num den : Nat) : Nat :=
  let quotient := num / den
  let rest := num % den
  if den < 2 * rest || (2 * rest = den && quotient % 2 = 1) then quotient + 1 else quotient

/-- The floor of the binary logarithm of a positive quotient. -/
def log2Ratio (num den : Nat) : Int :=
  let guess : Int := (Nat.log2 num : Int) - Nat.log2 den
  if den <<< guess.toNat ≤ num <<< (-guess).toNat then guess else guess - 1

/-- The magnitude of the number nearest to a quotient, ties to even, overflow to infinity. The
significand of the rounded number and its exponent add up to the bit pattern, because a carry out of
the fraction field is a step of the exponent field. -/
def roundRatio (num den : Nat) : Nat :=
  if num = 0 then 0
  else
    let e := max (log2Ratio num den - F.fractionBits) F.leastExponent
    let s := roundDiv (num <<< (-e).toNat) (den <<< e.toNat)
    min (s + (e - F.leastExponent).toNat <<< F.fractionBits) F.infinity

/-- The bit pattern of a datum; a finite one is rounded. -/
def pack : FloatDatum → Nat
  | .nan negative fraction => F.withSign negative (F.infinity + fraction)
  | .infinite negative => F.withSign negative F.infinity
  | .finite negative m q => F.withSign negative (F.roundRatio (m <<< q.toNat) (1 <<< (-q).toNat))

end FloatFormat

end Shading
