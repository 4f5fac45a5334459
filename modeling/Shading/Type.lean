import Shading.Reserved
import Shading.Intrinsic

/-! Types of expressions and declarations. -/
namespace Shading

/-- A scalar type. -/
inductive Primitive
  | bool | i32 | u32 | f32 | f64
  | reserved (code : Reserved 5)
deriving DecidableEq, Repr, Inhabited

namespace Primitive

def named : List Primitive := [bool, i32, u32, f32, f64]

def ofCode (c : UInt8) : Primitive :=
  if h : 5 ≤ c then .reserved ⟨c, h⟩ else named.getD c.toNat .bool

def code : Primitive → UInt8
  | .reserved c => c.code
  | p => (named.idxOf p).toUInt8

def text : Primitive → Text
  | .bool => "bool" | .i32 => "i32" | .u32 => "u32" | .f32 => "f32" | .f64 => "f64"
  | .reserved c => "PrimitiveType(" ++ Text.ofNat c.code.toNat ++ ")"

def ofName? (name : Text) : Option Primitive := named.find? fun p => p.text == name

def isFloat (p : Primitive) : Bool := p == .f32 || p == .f64
def isInteger (p : Primitive) : Bool := p == .i32 || p == .u32

/-- Does the type support arithmetic? -/
def isNumeric (p : Primitive) : Bool := p != .bool

end Primitive

/-- The dimensions of a sampled image. -/
inductive ImageDim
  | one | two | three | cube
  | reserved (code : Reserved 4)
deriving DecidableEq, Repr

namespace ImageDim

def named : List ImageDim := [one, two, three, cube]

def ofCode (c : UInt8) : ImageDim :=
  if h : 4 ≤ c then .reserved ⟨c, h⟩ else named.getD c.toNat .one

def code : ImageDim → UInt8
  | .reserved c => c.code
  | d => (named.idxOf d).toUInt8

def text : ImageDim → Text
  | .one => "1D" | .two => "2D" | .three => "3D" | .cube => "Cube"
  | .reserved .. => []

end ImageDim

/-- A named sequence of members. The number tells the declaration that it comes from. -/
structure Record (α : Type) where
  id : Int := 0
  name : Text
  members : List (Text × α)
deriving Repr, Inhabited

/-- A type. An expression whose type is not known yet has the type `unknown`. -/
inductive Ty
  | unknown
  | prim (p : Primitive)
  | vector (count : UInt32) (p : Primitive)
  | matrix (columns rows : UInt32) (p : Primitive)
  /-- a length of zero is one that is known at run time only -/
  | array (elem : Ty) (length : UInt32)
  | struct (r : Record Ty)
  | sampler (dim : ImageDim) (p : Primitive) (depth : Bool)
  | uniform (r : Record Ty)
  | storage (r : Record Ty)
  | func (id : Int) (name : Text) (params : List Ty) (result : Ty)
  | intrinsic (i : Intrinsic)
  | void
deriving Repr, Inhabited

namespace Ty

mutual

/-- The type as it is written in messages. -/
def text : Ty → Text
  | .unknown => "%!s(<nil>)"
  | .prim p => p.text
  | .vector n p => "vec" ++ Text.ofNat n.toNat ++ "[" ++ p.text ++ "]"
  | .matrix c r p =>
    if c = r then "mat" ++ Text.ofNat c.toNat ++ "[" ++ p.text ++ "]"
    else "mat" ++ Text.ofNat c.toNat ++ "x" ++ Text.ofNat r.toNat ++ "[" ++ p.text ++ "]"
  | .array t n =>
    if n = 0 then "dyn_array[" ++ text t ++ "]"
    else "array[" ++ text t ++ ", " ++ Text.ofNat n.toNat ++ "]"
  | .struct r => r.name
  | .sampler d p depth =>
    (if depth then Text.ofString "depth_sampler" else "sampler") ++ d.text ++ "[" ++ p.text ++ "]"
  | .uniform r => "uniform[" ++ r.name ++ "]"
  | .storage r => "storage[" ++ r.name ++ "]"
  | .func _ _ params result => "fn(" ++ Text.join ", " (texts params) ++ ") -> " ++ text result
  | .intrinsic i => "intrinsic " ++ i.text
  | .void => "void"

def texts : List Ty → List Text
  | [] => []
  | t :: ts => text t :: texts ts

end

mutual

/-- Equality of types: the numbers of structures and functions do not matter. -/
def same : Ty → Ty → Bool
  | .unknown, .unknown => true
  | .prim p, .prim q => p == q
  | .vector n p, .vector m q => n == m && p == q
  | .matrix c r p, .matrix d s q => c == d && r == s && p == q
  | .array t n, .array u m => n == m && same t u
  | .struct r, .struct s => r.name == s.name && sameMembers r.members s.members
  | .sampler d p x, .sampler e q y => d == e && p == q && x == y
  | .uniform r, .uniform s => r.name == s.name && sameMembers r.members s.members
  | .storage r, .storage s => r.name == s.name && sameMembers r.members s.members
  | .func _ a ps r, .func _ b qs s => a == b && sameList ps qs && same r s
  | .intrinsic i, .intrinsic j => i == j
  | .void, .void => true
  | _, _ => false

def sameList : List Ty → List Ty → Bool
  | [], [] => true
  | t :: ts, u :: us => same t u && sameList ts us
  | _, _ => false

def sameMembers : List (Text × Ty) → List (Text × Ty) → Bool
  | [], [] => true
  | (a, t) :: ts, (b, u) :: us => a == b && same t u && sameMembers ts us
  | _, _ => false

end

/-- Is there no value of the type? -/
def isVoid : Ty → Bool
  | .unknown | .void => true
  | _ => false

/-- The component type of a scalar, a vector or a matrix. -/
def scalar? : Ty → Option Primitive
  | .prim p | .vector _ p | .matrix _ _ p => some p
  | _ => none

/-- The component type of a scalar or a vector. -/
def scalarOrVector? : Ty → Option Primitive
  | .prim p | .vector _ p => some p
  | _ => none

/-- Is it that scalar type? -/
def isPrim (p : Primitive) : Ty → Bool
  | .prim q => p == q
  | _ => false

def isBool (t : Ty) : Bool := t.isPrim .bool

def isKnown : Ty → Bool
  | .unknown => false
  | _ => true

/-- The members of a structure or of a buffer of one. -/
def container? : Ty → Option (Record Ty)
  | .struct r | .uniform r | .storage r => some r
  | _ => none

/-- The type of an element of an array, a vector or a matrix. -/
def element : Ty → Ty
  | .array t _ => t
  | .vector _ p => .prim p
  | .matrix _ rows p => .vector rows p
  | _ => .unknown

/-- The type behind any number of arrays. -/
def innermost : Ty → Ty
  | .array t _ => t.innermost
  | t => t

/-- One for a scalar, and the size of a vector. -/
def components : Ty → UInt32
  | .prim _ => 1
  | .vector n _ => n
  | _ => 0

/-- The vector of a given size, which is a scalar if the size is one. -/
def vectorOf (p : Primitive) (count : UInt32) : Ty := if count = 1 then .prim p else .vector count p

end Ty

namespace Record

def memberIndex? {α : Type} (r : Record α) (name : Text) : Option Nat :=
  r.members.findIdx? fun m => m.1 == name

end Record

namespace ImageDim

/-- How many components a coordinate into an image has. -/
def coordinates : ImageDim → UInt32
  | .one => 1
  | .two => 2
  | _ => 3

end ImageDim

end Shading
