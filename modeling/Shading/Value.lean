import Shading.Number
import Shading.Table
import Shading.Type

/-! Compile-time values. -/
namespace Shading

/-- A literal, a folded constant or the value of an option. -/
inductive Value
  | absent
  | bool (b : Bool)
  | i32 (n : Int32)
  | u32 (n : UInt32)
  | f32 (x : Single)
  | f64 (x : Double)
  | vector (components : List Value)
  | matrix (columns : List (List Value))
deriving Repr, Inhabited

namespace Value

/-- The component type of a vector of values, which is that of its first component. -/
def componentType : List Ty → Primitive
  | [] => .bool
  | t :: _ => t.scalar?.getD .bool

mutual

def type : Value → Ty
  | .absent => .unknown
  | .bool _ => .prim .bool
  | .i32 _ => .prim .i32
  | .u32 _ => .prim .u32
  | .f32 _ => .prim .f32
  | .f64 _ => .prim .f64
  | .vector cs => .vector cs.length.toUInt32 (componentType (types cs))
  | .matrix [] => .matrix 0 0 .bool
  | .matrix (c :: cs) =>
    .matrix (cs.length + 1).toUInt32 c.length.toUInt32 (componentType (types c))

def types : List Value → List Ty
  | [] => []
  | v :: vs => type v :: types vs

end

/-- A number with at least a point or an exponent, so that it reads back as a float. -/
def pointed (t : Text) : Text :=
  if t.any (Text.ofString ".eEnN").elem then t else t ++ ".0"

mutual

/-- The value as it is written in messages and in canonical text. -/
def text : Value → Text
  | .absent => []
  | .bool b => Text.ofBool b
  | .i32 n => Text.ofInt n.toInt
  | .u32 n => Text.ofNat n.toNat ++ "u"
  | .f32 x => pointed x.text
  | .f64 x => "f64(" ++ pointed x.text ++ ")"
  | .vector cs => (type (.vector cs)).text ++ "(" ++ Text.join ", " (texts cs) ++ ")"
  | .matrix cols =>
    (type (.matrix cols)).text ++ "(" ++ Text.join ", " (columnTexts cols) ++ ")"

def texts : List Value → List Text
  | [] => []
  | v :: vs => text v :: texts vs

def columnTexts : List (List Value) → List Text
  | [] => []
  | c :: cs => ((type (.vector c)).text ++ "(" ++ Text.join ", " (texts c) ++ ")") :: columnTexts cs

end

mutual

/-- Equality of values; floats are compared by their bits. -/
def same : Value → Value → Bool
  | .absent, .absent => true
  | .bool a, .bool b => a == b
  | .i32 a, .i32 b => a == b
  | .u32 a, .u32 b => a == b
  | .f32 a, .f32 b => a == b
  | .f64 a, .f64 b => a == b
  | .vector as, .vector bs => sameList as bs
  | .matrix as, .matrix bs => sameColumns as bs
  | _, _ => false

def sameList : List Value → List Value → Bool
  | [], [] => true
  | a :: as, b :: bs => same a b && sameList as bs
  | _, _ => false

def sameColumns : List (List Value) → List (List Value) → Bool
  | [], [] => true
  | a :: as, b :: bs => sameList a b && sameColumns as bs
  | _, _ => false

end

mutual

/-- Does the value hold a number of the 64-bit format? -/
def holdsDouble : Value → Bool
  | .f64 _ => true
  | .vector cs => holdDoubles cs
  | .matrix cols => columnsHoldDoubles cols
  | _ => false

def holdDoubles : List Value → Bool
  | [] => false
  | v :: vs => holdsDouble v || holdDoubles vs

def columnsHoldDoubles : List (List Value) → Bool
  | [] => false
  | c :: cs => holdDoubles c || columnsHoldDoubles cs

end

/-- The value of an integer constant. -/
def toInt? : Value → Option Int
  | .i32 n => some n.toInt
  | .u32 n => some n.toNat
  | _ => none

/-- A scalar of a given type. A type that is no scalar type known here is taken for `f32`. -/
def scalar (p : Primitive) (one : Bool) : Value :=
  let n : Int := if one then 1 else 0
  match p with
  | .bool => .bool one
  | .i32 => .i32 n.toInt32
  | .u32 => .u32 n.toNat.toUInt32
  | .f64 => .f64 (Double.ofInt n)
  | _ => .f32 (Double.ofInt n).toSingle

/-- The zero of a scalar, vector or matrix type. -/
def zero? : Ty → Option Value
  | .prim p => some (scalar p false)
  | .vector n p => some (.vector (List.replicate n.toNat (scalar p false)))
  | .matrix c r p => some (.matrix (List.replicate c.toNat (List.replicate r.toNat (scalar p false))))
  | _ => none

end Value

/-- Values for options, stored under the checksum of the option's name. -/
abbrev OptionValues := Table UInt32.toNat Value

namespace OptionValues

def key (name : Text) : UInt32 := Checksum.crc32 name

/-- Stores a value; a later one for the same key wins. -/
def set (o : OptionValues) (name : Text) (v : Value) : OptionValues := o.insert (key name) v

def get? (o : OptionValues) (name : Text) : Option Value := Table.get? o (key name)

end OptionValues

end Shading
