import Shading.Operator
import Shading.Type

/-! The typing rules of operators and of values built from parts. -/
namespace Shading

/-- Why a rule of typing does not apply. -/
inductive TypeError
  | binary (op : BinaryOp) (l r : Ty)
  | unary (op : UnaryOp) (t : Ty)
  | argumentCount (target : Primitive) (count : Nat)
  | conversion (source target : Ty)
  | part (target part : Ty)
  | componentCount (target : Ty) (wanted count : UInt32)
  | parts (target : Ty) (parts : List Ty)
  | elementCount (target : Ty) (length : UInt32) (count : Nat)
  | element (index : Nat) (target element : Ty)
  | notConstructible (target : Ty)
  | intrinsicCount (fn : Intrinsic) (wanted count : Nat)
  | intrinsicMixed (fn : Intrinsic) (args : List Ty)
  | intrinsicFloat (fn : Intrinsic) (t : Ty)
  | intrinsicVector (fn : Intrinsic) (t : Ty)
  | intrinsicNumeric (fn : Intrinsic) (t : Ty)
  | intrinsicSigned (fn : Intrinsic) (t : Ty)
  | intrinsicSquare (fn : Intrinsic) (t : Ty)
  | intrinsicBools (fn : Intrinsic) (t : Ty)
  | crossComponents (count : UInt32)
  | transposed (t : Ty)
  | sampled (t : Ty)
  | coordinates (sampler wanted t : Ty)
  | sized (t : Ty)
  | unknownIntrinsic (fn : Intrinsic)

namespace TypeError

def listed (ts : List Ty) : Text := "(" ++ Text.join ", " (ts.map Ty.text) ++ ")"

def message : TypeError → Text
  | .binary op l r => "operator " ++ op.text ++ " cannot be applied to " ++ l.text ++ " and " ++ r.text
  | .unary op t => "operator " ++ op.text ++ " cannot be applied to " ++ t.text
  | .argumentCount p n => p.text ++ " expects 1 argument, got " ++ Text.ofNat n
  | .conversion s t => "cannot convert " ++ s.text ++ " to " ++ t.text
  | .part t p => t.text ++ " cannot be built from " ++ p.text
  | .componentCount t wanted n =>
    t.text ++ " expects " ++ Text.ofNat wanted.toNat ++ " components, got " ++ Text.ofNat n.toNat
  | .parts t ps => t.text ++ " cannot be built from " ++ listed ps
  | .elementCount t length n =>
    t.text ++ " expects " ++ Text.ofNat length.toNat ++ " elements, got " ++ Text.ofNat n
  | .element i t e => "element " ++ Text.ofNat i ++ " of " ++ t.text ++ " has type " ++ e.text
  | .notConstructible t => "cannot construct a value of type " ++ t.text
  | .intrinsicCount f wanted n =>
    f.text ++ " expects " ++ Text.ofNat wanted ++ " argument(s), got " ++ Text.ofNat n
  | .intrinsicMixed f ts => f.text ++ " arguments must have the same type, got " ++ listed ts
  | .intrinsicFloat f t => f.text ++ " expects a floating-point argument, got " ++ t.text
  | .intrinsicVector f t => f.text ++ " expects a vector, got " ++ t.text
  | .intrinsicNumeric f t => f.text ++ " expects a numeric argument, got " ++ t.text
  | .intrinsicSigned f t => f.text ++ " expects a signed argument, got " ++ t.text
  | .intrinsicSquare f t => f.text ++ " expects a square matrix, got " ++ t.text
  | .intrinsicBools f t => f.text ++ " expects a boolean vector, got " ++ t.text
  | .crossComponents n =>
    "cross expects vectors of 3 components, got " ++ Text.ofNat n.toNat ++ " components"
  | .transposed t => "transpose expects a matrix, got " ++ t.text
  | .sampled t => "Sample expects a sampler, got " ++ t.text
  | .coordinates s wanted t => s.text ++ " coordinates must be " ++ wanted.text ++ ", got " ++ t.text
  | .sized t => "Size expects an array, got " ++ t.text
  | .unknownIntrinsic f => "unknown intrinsic " ++ f.text

end TypeError

namespace Ty

def isMatrix : Ty → Bool
  | .matrix .. => true
  | _ => false

def isVector : Ty → Bool
  | .vector .. => true
  | _ => false

/-- The type of a product of scalars, vectors and matrices with the same component type. -/
def product? (l r : Ty) : Option Ty :=
  match l, r with
  | .prim _, _ => some r
  | .vector .., .prim _ => some l
  | .vector n p, .vector m q => if n == m && p == q then some l else none
  | .vector n p, .matrix c rows _ => if n == rows then some (.vector c p) else none
  | .matrix .., .prim _ => some l
  | .matrix c rows p, .vector n _ => if n == c then some (.vector rows p) else none
  | .matrix c rows p, .matrix d s _ => if c == s then some (.matrix d rows p) else none
  | _, _ => none

/-- The type of a sum, a difference, a product, a quotient or a remainder. -/
def arithmetic? (op : BinaryOp) (l r : Ty) : Option Ty := do
  let p ← l.scalar?
  let q ← r.scalar?
  if p != q || !p.isNumeric then none
  else match op with
    | .add | .sub => if l.same r then some l else none
    | .mod => if !l.isMatrix && l.same r then some l else none
    | .mul => product? l r
    | .div =>
      if l.isMatrix || r.isMatrix then none
      else if l.same r then some l
      else if l.isVector && r.isPrim q then some l
      else if r.isVector && l.isPrim p then some r
      else none
    | _ => none

def comparison? (op : BinaryOp) (l r : Ty) : Option Ty :=
  match l with
  | .prim p =>
    if !l.same r || (p == .bool && op != .eq && op != .ne) then none else some (.prim .bool)
  | _ => none

def bitwise? (l r : Ty) : Option Ty := do
  let p ← l.scalarOrVector?
  if p.isInteger && l.same r then some l else none

/-- The type of a binary operation. -/
def binary (op : BinaryOp) (l r : Ty) : Except TypeError Ty :=
  let result :=
    if op.isLogical then if l.isBool && r.isBool then some (.prim .bool) else none
    else if op.isComparison then comparison? op l r
    else if op.isBitwise then bitwise? l r
    else arithmetic? op l r
  match result with
  | some t => .ok t
  | none => .error (.binary op l r)

/-- May an operator be applied to a value of the type? -/
def admits (op : UnaryOp) (t : Ty) : Bool :=
  match op with
  | .minus => t.scalar?.any fun p => p != .bool && p != .u32
  | .plus => t.scalar?.any (·.isNumeric)
  | .not => t.isBool
  | .bitNot => t.scalarOrVector?.any (·.isInteger)
  | .reserved .. => false

/-- The type of a unary operation, which is that of its operand. -/
def unary (op : UnaryOp) (t : Ty) : Except TypeError Ty :=
  if t.admits op then .ok t else .error (.unary op t)

def checkParts (target : Ty) (p : Primitive) : List Ty → UInt32 → Except TypeError UInt32
  | [], total => .ok total
  | t :: ts, total =>
    if t.scalarOrVector? == some p then checkParts target p ts (total + t.components)
    else .error (.part target t)

def checkVector (n : UInt32) (p : Primitive) (args : List Ty) : Except TypeError Unit :=
  let target := .vector n p
  match args with
  | [.prim q] => if q == p then .ok () else .error (.conversion (.prim q) target)
  | [.vector m q] =>
    if m == n && (q == .bool) == (p == .bool) then .ok () else .error (.conversion (.vector m q) target)
  | [t] => .error (.conversion t target)
  | _ => do
    let total ← checkParts target p args 0
    if total == n then .ok () else .error (.componentCount target n total)

def isResizable (p : Primitive) : List Ty → Bool
  | [.matrix _ _ q] => q == p
  | _ => false

def checkElements (target elem : Ty) : List Ty → Nat → Except TypeError Unit
  | [], _ => .ok ()
  | t :: ts, i => if t.same elem then checkElements target elem ts (i + 1) else .error (.element i target t)

/-- May a value of the target type be built from arguments of the given types? -/
def construct (target : Ty) (args : List Ty) : Except TypeError Unit :=
  match target with
  | .prim p =>
    match args with
    | [.prim q] => if (q == .bool) == (p == .bool) then .ok () else .error (.conversion (.prim q) target)
    | [t] => .error (.conversion t target)
    | _ => .error (.argumentCount p args.length)
  | .vector n p => checkVector n p args
  | .matrix c r p =>
    if isResizable p args
      || (args.length == c.toNat && args.all fun t => t.same (.vector r p))
      || (args.length == (c * r).toNat && args.all fun t => t.isPrim p)
    then .ok () else .error (.parts target args)
  | .array elem n =>
    if n == 0 || args.length != n.toNat then .error (.elementCount target n args.length)
    else checkElements target elem args 0
  | _ => .error (.notConstructible target)

end Ty

-- Names that make a type out of their arguments, such as `vec3` in `vec3[f32]`.

/-- What a type is made for by a name with arguments. -/
inductive TypeConstructor
  | vector (count : UInt32)
  | matrix (columns rows : UInt32)
  | sampler (dim : ImageDim) (depth : Bool)
  | array
  | runtimeArray
  | uniform
  | storage
deriving DecidableEq, Repr

namespace TypeConstructor

/-- A size of a vector or a matrix: one digit from two to four. -/
def size? : Text → Option UInt32
  | [b] => if Text.byte '2' ≤ b ∧ b ≤ Text.byte '4' then some (b - Text.byte '0').toUInt32 else none
  | _ => none

def matrix? (sizes : Text) : Option TypeConstructor :=
  match sizes with
  | [c, x, r] =>
    if x = Text.byte 'x' then do return .matrix (← size? [c]) (← size? [r]) else none
  | _ => do
    let n ← size? sizes
    return .matrix n n

def others : List (Text × TypeConstructor) :=
  [("sampler1D", .sampler .one false), ("sampler2D", .sampler .two false),
   ("sampler3D", .sampler .three false), ("samplerCube", .sampler .cube false),
   ("depth_sampler2D", .sampler .two true), ("depth_samplerCube", .sampler .cube true),
   ("array", .array), ("dyn_array", .runtimeArray), ("uniform", .uniform), ("storage", .storage)]

def ofName? (name : Text) : Option TypeConstructor :=
  match Text.dropStart? "vec" name, Text.dropStart? "mat" name with
  | some sizes, _ => (size? sizes).map .vector
  | none, some sizes => matrix? sizes
  | none, none => others.lookup name

end TypeConstructor

end Shading

namespace Shading.Intrinsic

/-- Checks on the arguments of a built-in function. -/
structure Arguments where
  fn : Intrinsic
  types : List Ty

namespace Arguments

def first (a : Arguments) : Ty := a.types.headD .unknown

def count (a : Arguments) (n : Nat) : Except TypeError Unit :=
  if a.types.length == n then .ok () else .error (.intrinsicCount a.fn n a.types.length)

def alike (a : Arguments) : Except TypeError Unit :=
  if a.types.tail.all (·.same a.first) then .ok () else .error (.intrinsicMixed a.fn a.types)

def numeric (a : Arguments) : Except TypeError Unit :=
  if a.first.scalarOrVector?.any (·.isNumeric) then .ok () else .error (.intrinsicNumeric a.fn a.first)

def floating (a : Arguments) : Except TypeError Unit :=
  if a.first.scalarOrVector?.any (·.isFloat) then .ok () else .error (.intrinsicFloat a.fn a.first)

def floatVector (a : Arguments) : Except TypeError Unit := do
  a.floating
  if a.first.isVector then .ok () else .error (.intrinsicVector a.fn a.first)

/-- The component type of the first argument. -/
def scalar (a : Arguments) : Ty := .prim (a.first.scalar?.getD .bool)

end Arguments

/-- The type of a call of the function with arguments of the given types. -/
def resultType (fn : Intrinsic) (types : List Ty) : Except TypeError Ty := do
  let a : Arguments := ⟨fn, types⟩
  match fn with
  | .abs | .sign =>
    a.count 1
    a.numeric
    if a.first.scalarOrVector? == some .u32 then .error (.intrinsicSigned fn a.first) else .ok a.first
  | .ceil | .floor | .fract | .round | .trunc | .sqrt | .inverseSqrt | .exp | .exp2 | .log | .log2
  | .sin | .cos | .tan | .asin | .acos | .atan | .radians | .degrees =>
    a.count 1
    a.floating
    return a.first
  | .normalize =>
    a.count 1
    a.floatVector
    return a.first
  | .length =>
    a.count 1
    a.floatVector
    return a.scalar
  | .distance | .dot =>
    a.count 2
    a.alike
    a.floatVector
    return a.scalar
  | .reflect =>
    a.count 2
    a.alike
    a.floatVector
    return a.first
  | .cross =>
    a.count 2
    a.alike
    a.floatVector
    if a.first.components == 3 then .ok a.first else .error (.crossComponents a.first.components)
  | .max | .min =>
    a.count 2
    a.alike
    a.numeric
    return a.first
  | .clamp =>
    a.count 3
    a.alike
    a.numeric
    return a.first
  | .pow | .step =>
    a.count 2
    a.alike
    a.floating
    return a.first
  | .lerp | .smoothStep =>
    a.count 3
    a.alike
    a.floating
    return a.first
  | .all | .any =>
    a.count 1
    match a.first with
    | .vector _ .bool => return .prim .bool
    | t => .error (.intrinsicBools fn t)
  | .transpose =>
    a.count 1
    match a.first with
    | .matrix c r p => return .matrix r c p
    | t => .error (.transposed t)
  | .inverse =>
    a.count 1
    match a.first with
    | .matrix c r p => if c == r then .ok (.matrix c r p) else .error (.intrinsicSquare fn (.matrix c r p))
    | t => .error (.intrinsicSquare fn t)
  | .determinant =>
    a.count 1
    match a.first with
    | .matrix c r p => if c == r then .ok (.prim p) else .error (.intrinsicSquare fn (.matrix c r p))
    | t => .error (.intrinsicSquare fn t)
  | .sample =>
    a.count 2
    match a.types with
    | [.sampler dim p depth, t] =>
      let wanted := Ty.vectorOf .f32 dim.coordinates
      if t.same wanted then return .vector 4 p
      else .error (.coordinates (.sampler dim p depth) wanted t)
    | _ => .error (.sampled a.first)
  | .size =>
    a.count 1
    match a.first with
    | .array .. => return .prim .u32
    | t => .error (.sized t)
  | .reserved .. => .error (.unknownIntrinsic fn)

end Shading.Intrinsic
