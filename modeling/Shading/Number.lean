import Shading.Decimal
import Shading.FloatFormat.Arithmetic

/-! Floating-point numbers as bit patterns, so that NaNs keep their payload. -/
namespace Shading

/-- A number of the 32-bit format. -/
structure Single where
  bits : UInt32
deriving DecidableEq, Repr, Inhabited

/-- A number of the 64-bit format. -/
structure Double where
  bits : UInt64
deriving DecidableEq, Repr, Inhabited

namespace FloatFormat

/-- The shortest text that reads back as the number. Whole numbers get no point here. -/
def write (F : FloatFormat) (bits : Nat) : Text :=
  match F.unpack bits with
  | .nan .. => "NaN"
  | .infinite negative => if negative then "-Inf" else "+Inf"
  | .finite negative m q =>
    let sign : Text := if negative then "-" else []
    let magnitude : Text :=
      if m = 0 then "0" else Decimal.write Decimal.general (Decimal.Shortest.shortest F m q)
    sign ++ magnitude

end FloatFormat

namespace Single

def ofNat (bits : Nat) : Single := ⟨bits.toUInt32⟩
def toNat (x : Single) : Nat := x.bits.toNat
def datum (x : Single) : FloatDatum := FloatFormat.single.unpack x.toNat
def isNan (x : Single) : Bool := x.datum.isNan

instance : Neg Single := ⟨fun x => ofNat (FloatFormat.single.neg x.toNat)⟩
instance : Add Single := ⟨fun x y => ofNat (FloatFormat.single.add x.toNat y.toNat)⟩
instance : Sub Single := ⟨fun x y => ofNat (FloatFormat.single.sub x.toNat y.toNat)⟩
instance : Mul Single := ⟨fun x y => ofNat (FloatFormat.single.mul x.toNat y.toNat)⟩
instance : Div Single := ⟨fun x y => ofNat (FloatFormat.single.div x.toNat y.toNat)⟩
instance : Mod Single := ⟨fun x y => ofNat (FloatFormat.single.rem x.toNat y.toNat)⟩

def compare (x y : Single) : Option Ordering := FloatFormat.single.compare x.toNat y.toNat
def toDouble (x : Single) : Double := ⟨(FloatFormat.single.convert .double x.toNat).toUInt64⟩
def text (x : Single) : Text := FloatFormat.single.write x.toNat

end Single

namespace Double

def ofNat (bits : Nat) : Double := ⟨bits.toUInt64⟩
def toNat (x : Double) : Nat := x.bits.toNat
def datum (x : Double) : FloatDatum := FloatFormat.double.unpack x.toNat
def isNan (x : Double) : Bool := x.datum.isNan

instance : Neg Double := ⟨fun x => ofNat (FloatFormat.double.neg x.toNat)⟩
instance : Add Double := ⟨fun x y => ofNat (FloatFormat.double.add x.toNat y.toNat)⟩
instance : Sub Double := ⟨fun x y => ofNat (FloatFormat.double.sub x.toNat y.toNat)⟩
instance : Mul Double := ⟨fun x y => ofNat (FloatFormat.double.mul x.toNat y.toNat)⟩
instance : Div Double := ⟨fun x y => ofNat (FloatFormat.double.div x.toNat y.toNat)⟩

/-- The remainder; where there is none it is the NaN whose payload is one. -/
instance : Mod Double := ⟨fun x y =>
  let r := ofNat (FloatFormat.double.rem x.toNat y.toNat)
  if r.isNan then ⟨0x7FF8000000000001⟩ else r⟩

def compare (x y : Double) : Option Ordering := FloatFormat.double.compare x.toNat y.toNat
def toSingle (x : Double) : Single := ⟨(FloatFormat.double.convert .single x.toNat).toUInt32⟩
def ofInt (n : Int) : Double := ofNat (FloatFormat.double.ofInt n)
def text (x : Double) : Text := FloatFormat.double.write x.toNat

/-- The integer part, if it lies in a range. -/
private def truncateWithin? (x : Double) (least greatest : Int) : Option Int :=
  (FloatFormat.double.truncate? x.toNat).filter fun n => least ≤ n && n ≤ greatest

/-- The integer part, and the least number where it does not fit. -/
def toInt32 (x : Double) : Int32 :=
  match x.truncateWithin? Int32.minValue.toInt Int32.maxValue.toInt with
  | some n => n.toInt32
  | none => Int32.minValue

/-- The low half of the integer part, which has 64 bits; zero where it does not fit. -/
def toUInt32 (x : Double) : UInt32 :=
  match x.truncateWithin? Int64.minValue.toInt Int64.maxValue.toInt with
  | some n => (n % UInt32.size).toNat.toUInt32
  | none => 0

end Double

end Shading
