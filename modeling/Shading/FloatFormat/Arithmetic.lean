import Shading.FloatFormat

/-! Arithmetic on bit patterns: the exact result is rounded once. The first NaN operand is quieted and
passed on; an operation without a result gives the negative quiet NaN. -/
namespace Shading

namespace FloatDatum

def isNan : FloatDatum → Bool
  | .nan .. => true
  | _ => false

def isZero : FloatDatum → Bool
  | .finite _ 0 _ => true
  | _ => false

def negative : FloatDatum → Bool
  | .nan n _ => n
  | .infinite n => n
  | .finite n .. => n

/-- The signed significand of a finite datum at an exponent not above its own. -/
private def scaled (negative : Bool) (m : Nat) (q : Int) (common : Int) : Int :=
  let magnitude : Int := (m <<< (q - common).toNat : Nat)
  if negative then -magnitude else magnitude

/-- The order of two data that are no NaNs. Zeros of either sign are equal. -/
def compare : FloatDatum → FloatDatum → Option Ordering
  | .nan .., _ => none
  | _, .nan .. => none
  | .infinite a, .infinite b => some (Ord.compare b a)
  | .infinite a, .finite .. => some (if a then .lt else .gt)
  | .finite .., .infinite b => some (if b then .gt else .lt)
  | .finite a m q, .finite b n r =>
    let common := min q r
    some (Ord.compare (scaled a m q common) (scaled b n r common))

/-- The datum with its fraction dropped, as an integer. -/
def truncate? : FloatDatum → Option Int
  | .finite negative m q =>
    let magnitude : Int := (m <<< q.toNat >>> (-q).toNat : Nat)
    some (if negative then -magnitude else magnitude)
  | _ => none

end FloatDatum

namespace FloatFormat

variable (F : FloatFormat)

/-- The result of an operation that has none. -/
def noNumber : FloatDatum := .nan true F.quietBit

private def quiet (negative : Bool) (fraction : Nat) : FloatDatum :=
  .nan negative (F.quietBit + fraction % F.quietBit)

/-- Hands on the first NaN operand, and computes where there is none. -/
private def binary (f : FloatDatum → FloatDatum → FloatDatum) (a b : FloatDatum) : FloatDatum :=
  match a, b with
  | .nan n x, _ => F.quiet n x
  | _, .nan n x => F.quiet n x
  | _, _ => f a b

private def addData (a b : FloatDatum) : FloatDatum :=
  match a, b with
  | .infinite x, .infinite y => if x = y then .infinite x else F.noNumber
  | .infinite x, _ => .infinite x
  | _, .infinite y => .infinite y
  | .finite x m q, .finite y n r =>
    let common := min q r
    let left : Int := (m <<< (q - common).toNat : Nat)
    let right : Int := (n <<< (r - common).toNat : Nat)
    let sum := (if x then -left else left) + (if y then -right else right)
    if sum = 0 then .finite (x && y) 0 common else .finite (sum < 0) sum.natAbs common
  | _, _ => F.noNumber

private def negate : FloatDatum → FloatDatum
  | .nan n x => .nan n x
  | .infinite n => .infinite (!n)
  | .finite n m q => .finite (!n) m q

private def mulData (a b : FloatDatum) : FloatDatum :=
  let negative := a.negative != b.negative
  match a, b with
  | .finite _ m q, .finite _ n r => .finite negative (m * n) (q + r)
  | _, _ => if a.isZero || b.isZero then F.noNumber else .infinite negative

def add (a b : Nat) : Nat := F.pack (F.binary F.addData (F.unpack a) (F.unpack b))

def sub (a b : Nat) : Nat :=
  F.pack (F.binary (fun x y => F.addData x (negate y)) (F.unpack a) (F.unpack b))

def mul (a b : Nat) : Nat := F.pack (F.binary F.mulData (F.unpack a) (F.unpack b))

def div (a b : Nat) : Nat :=
  let x := F.unpack a
  let y := F.unpack b
  let negative := x.negative != y.negative
  match x, y with
  | .finite _ m q, .finite _ n r =>
    if n = 0 then (if m = 0 then F.pack F.noNumber else F.withSign negative F.infinity)
    else F.withSign negative
      (F.roundRatio (m <<< (q - r).toNat) (n <<< (r - q).toNat))
  | .infinite _, .finite .. => F.withSign negative F.infinity
  | .finite .., .infinite _ => F.withSign negative 0
  | _, _ => F.pack (F.binary (fun _ _ => F.noNumber) x y)

/-- The remainder of a division whose quotient is truncated; it has the sign of the dividend. -/
def rem (a b : Nat) : Nat :=
  match F.unpack a, F.unpack b with
  | .finite x m q, .finite _ n r =>
    if n = 0 then F.pack (.nan false F.quietBit)
    else
      let common := min q r
      F.pack (.finite x (m <<< (q - common).toNat % n <<< (r - common).toNat) common)
  | .finite x m q, .infinite _ => F.pack (.finite x m q)
  | _, _ => F.pack (.nan false F.quietBit)

/-- Flips the sign bit. -/
def neg (a : Nat) : Nat := if a / F.signBit % 2 = 1 then a - F.signBit else a + F.signBit

def compare (a b : Nat) : Option Ordering := (F.unpack a).compare (F.unpack b)

/-- The number of another format nearest to this one. The leading bits of a NaN's fraction are kept. -/
def convert (G : FloatFormat) (a : Nat) : Nat :=
  match F.unpack a with
  | .nan n x =>
    let moved := x <<< (G.fractionBits - F.fractionBits) >>> (F.fractionBits - G.fractionBits)
    G.pack (G.quiet n moved)
  | d => G.pack d

/-- The number nearest to an integer. -/
def ofInt (n : Int) : Nat := F.withSign (n < 0) (F.roundRatio n.natAbs 1)

def truncate? (a : Nat) : Option Int := (F.unpack a).truncate?

end FloatFormat

end Shading
