import Shading.Operator
import Shading.Value

/-! Arithmetic on compile-time values. -/
namespace Shading

/-- Why an expression has no value at compile time. -/
inductive EvalError
  | notConstant
  | noValue (id : Int)
  | conditionType (t : Ty)
  | indexType (t : Ty)
  | operand (op : Text) (t : Ty)
  | operands (op : BinaryOp) (l r : Ty)
  | componentMismatch (op : BinaryOp) (l r : Ty)
  | divisionByZero
  | shiftCount (count : Value)
  | argumentCount (p : Primitive) (count : Nat)
  | componentCount (t : Ty) (wanted : UInt32) (count : Nat)
  | severalMatrices (t : Ty)
  | conversion (source target : Ty)
  | swizzleType (t : Ty)
  | swizzleRange (component : UInt32) (t : Ty)
  | indexTarget (t : Ty)
  | indexRange (index : Int) (t : Ty)
deriving Repr

namespace EvalError

/-- Does the expression depend on values that are known at run time only? -/
def isNotConstant : EvalError → Bool
  | .notConstant | .noValue _ => true
  | _ => false

def message : EvalError → Text
  | .notConstant => "expression is not a compile-time constant"
  | .noValue id => "constant #" ++ Text.ofInt id ++
      " has no value: expression is not a compile-time constant"
  | .conditionType t => "condition must be bool, got " ++ t.text
  | .indexType t => "index must be an integer, got " ++ t.text
  | .operand op t => "operator " ++ op ++ " cannot be applied to " ++ t.text
  | .operands op l r => "operator " ++ op.text ++ " cannot be applied to " ++ l.text ++ " and " ++ r.text
  | .componentMismatch op l r =>
    "component count mismatch: " ++ l.text ++ " " ++ op.text ++ " " ++ r.text
  | .divisionByZero => "integer division by zero"
  | .shiftCount v => "shift count " ++ v.text ++ " out of range"
  | .argumentCount p n => p.text ++ " expects 1 argument, got " ++ Text.ofNat n
  | .componentCount t wanted n =>
    t.text ++ " expects " ++ Text.ofNat wanted.toNat ++ " components, got " ++ Text.ofNat n
  | .severalMatrices t => t.text ++ " cannot be built from several matrices"
  | .conversion s t => "cannot convert " ++ s.text ++ " to " ++ t.text
  | .swizzleType t => "cannot swizzle " ++ t.text
  | .swizzleRange c t => "swizzle component " ++ Text.ofNat c.toNat ++ " out of range for " ++ t.text
  | .indexTarget t => "cannot index " ++ t.text
  | .indexRange i t => "index " ++ Text.ofInt i ++ " out of range for " ++ t.text

end EvalError

namespace Value

mutual

/-- Applies an operator to a value, component by component for a vector. -/
def unary (op : UnaryOp) : Value → Except EvalError Value
  | .vector cs => do return .vector (← unaryList op cs)
  | .bool b =>
    match op with
    | .not => .ok (.bool !b)
    | _ => .error (.operand op.text (.prim .bool))
  | .i32 n =>
    match op with
    | .minus => .ok (.i32 (-n))
    | .plus => .ok (.i32 n)
    | .bitNot => .ok (.i32 (~~~n))
    | _ => .error (.operand op.text (.prim .i32))
  | .u32 n =>
    match op with
    | .minus => .ok (.u32 (-n))
    | .plus => .ok (.u32 n)
    | .bitNot => .ok (.u32 (~~~n))
    | _ => .error (.operand op.text (.prim .u32))
  | .f32 x =>
    match op with
    | .minus => .ok (.f32 (-x))
    | .plus => .ok (.f32 x)
    | _ => .error (.operand op.text (.prim .f32))
  | .f64 x =>
    match op with
    | .minus => .ok (.f64 (-x))
    | .plus => .ok (.f64 x)
    | _ => .error (.operand op.text (.prim .f64))
  | v => .error (.operand op.text v.type)

def unaryList (op : UnaryOp) : List Value → Except EvalError (List Value)
  | [] => .ok []
  | v :: vs => do
    let w ← unary op v
    let ws ← unaryList op vs
    return w :: ws

end

/-- The answer of a comparison, given the order of the operands; a NaN has none. -/
def compared? (op : BinaryOp) (order : Option Ordering) : Option Value :=
  match op with
  | .eq => some (.bool (order == some .eq))
  | .ne => some (.bool (order != some .eq))
  | .lt => some (.bool (order == some .lt))
  | .le => some (.bool (order == some .lt || order == some .eq))
  | .gt => some (.bool (order == some .gt))
  | .ge => some (.bool (order == some .gt || order == some .eq))
  | _ => none

def signed (op : BinaryOp) (x y : Int32) : Except EvalError Value :=
  if let some v := compared? op (some (compare x y)) then .ok v
  else match op with
    | .add => .ok (.i32 (x + y))
    | .sub => .ok (.i32 (x - y))
    | .mul => .ok (.i32 (x * y))
    | .div => if y = 0 then .error .divisionByZero else .ok (.i32 (x / y))
    | .mod => if y = 0 then .error .divisionByZero else .ok (.i32 (x % y))
    | .bitAnd => .ok (.i32 (x &&& y))
    | .bitOr => .ok (.i32 (x ||| y))
    | .bitXor => .ok (.i32 (x ^^^ y))
    | .shiftLeft => if y < 0 || 32 ≤ y then .error (.shiftCount (.i32 y)) else .ok (.i32 (x <<< y))
    | .shiftRight => if y < 0 || 32 ≤ y then .error (.shiftCount (.i32 y)) else .ok (.i32 (x >>> y))
    | _ => .error (.operand op.text (.prim .i32))

def unsigned (op : BinaryOp) (x y : UInt32) : Except EvalError Value :=
  if let some v := compared? op (some (compare x y)) then .ok v
  else match op with
    | .add => .ok (.u32 (x + y))
    | .sub => .ok (.u32 (x - y))
    | .mul => .ok (.u32 (x * y))
    | .div => if y = 0 then .error .divisionByZero else .ok (.u32 (x / y))
    | .mod => if y = 0 then .error .divisionByZero else .ok (.u32 (x % y))
    | .bitAnd => .ok (.u32 (x &&& y))
    | .bitOr => .ok (.u32 (x ||| y))
    | .bitXor => .ok (.u32 (x ^^^ y))
    | .shiftLeft => if 32 ≤ y then .error (.shiftCount (.u32 y)) else .ok (.u32 (x <<< y))
    | .shiftRight => if 32 ≤ y then .error (.shiftCount (.u32 y)) else .ok (.u32 (x >>> y))
    | _ => .error (.operand op.text (.prim .u32))

def single (op : BinaryOp) (x y : Single) : Except EvalError Value :=
  if let some v := compared? op (x.compare y) then .ok v
  else match op with
    | .add => .ok (.f32 (x + y))
    | .sub => .ok (.f32 (x - y))
    | .mul => .ok (.f32 (x * y))
    | .div => .ok (.f32 (x / y))
    | .mod => .ok (.f32 (x % y))
    | _ => .error (.operand op.text (.prim .f32))

def double (op : BinaryOp) (x y : Double) : Except EvalError Value :=
  if let some v := compared? op (x.compare y) then .ok v
  else match op with
    | .add => .ok (.f64 (x + y))
    | .sub => .ok (.f64 (x - y))
    | .mul => .ok (.f64 (x * y))
    | .div => .ok (.f64 (x / y))
    | .mod => .ok (.f64 (x % y))
    | _ => .error (.operand op.text (.prim .f64))

/-- Applies an operator to two values that are no vectors. -/
def scalarBinary (op : BinaryOp) (l r : Value) : Except EvalError Value :=
  match l, r with
  | .bool x, .bool y =>
    match op with
    | .eq => .ok (.bool (x == y))
    | .ne => .ok (.bool (x != y))
    | .and => .ok (.bool (x && y))
    | .or => .ok (.bool (x || y))
    | _ => .error (.operands op (.prim .bool) (.prim .bool))
  | .i32 x, .i32 y => signed op x y
  | .u32 x, .u32 y => unsigned op x y
  | .f32 x, .f32 y => single op x y
  | .f64 x, .f64 y => double op x y
  | l, r => .error (.operands op l.type r.type)

mutual

/-- Applies an operator to two values. Vectors are worked through component by component, and a scalar
beside a vector stands for each of its components; only equality looks at vectors as a whole. -/
def binary (op : BinaryOp) (l r : Value) : Except EvalError Value :=
  match op, l, r with
  | .eq, .vector _, _ | .eq, _, .vector _ => .ok (.bool (same l r))
  | .ne, .vector _, _ | .ne, _, .vector _ => .ok (.bool !(same l r))
  | _, .vector ls, .vector rs =>
    if ls.length = rs.length then do return .vector (← binaryZip op ls rs)
    else .error (.componentMismatch op (type (.vector ls)) (type (.vector rs)))
  | _, .vector ls, r => do return .vector (← binaryLeft op ls r)
  | _, l, .vector rs => do return .vector (← binaryRight op l rs)
  | _, l, r => scalarBinary op l r
termination_by sizeOf l + sizeOf r

def binaryZip (op : BinaryOp) (ls rs : List Value) : Except EvalError (List Value) :=
  match ls, rs with
  | l :: ls, r :: rs => do
    let v ← binary op l r
    let vs ← binaryZip op ls rs
    return v :: vs
  | _, _ => .ok []
termination_by sizeOf ls + sizeOf rs

def binaryLeft (op : BinaryOp) (ls : List Value) (r : Value) : Except EvalError (List Value) :=
  match ls with
  | [] => .ok []
  | l :: ls => do
    let v ← binary op l r
    let vs ← binaryLeft op ls r
    return v :: vs
termination_by sizeOf ls + sizeOf r

def binaryRight (op : BinaryOp) (l : Value) (rs : List Value) : Except EvalError (List Value) :=
  match rs with
  | [] => .ok []
  | r :: rs => do
    let v ← binary op l r
    let vs ← binaryRight op l rs
    return v :: vs
termination_by sizeOf l + sizeOf rs

end

def toDouble? : Value → Option Double
  | .i32 n => some (Double.ofInt n.toInt)
  | .u32 n => some (Double.ofInt n.toNat)
  | .f32 x => some x.toDouble
  | .f64 x => some x
  | _ => none

/-- Converts a scalar to another scalar type. There is no conversion from or to `bool`. -/
def convert (v : Value) (p : Primitive) : Except EvalError Value :=
  match v, p with
  | .bool b, .bool => .ok (.bool b)
  | .bool _, _ => .error (.conversion (.prim .bool) (.prim p))
  | _, .bool => .error (.conversion v.type (.prim .bool))
  | _, _ =>
    match v.toDouble?, v.toInt?, p with
    | none, _, _ => .error (.conversion v.type (.prim p))
    | some x, _, .f32 => .ok (.f32 x.toSingle)
    | some x, _, .f64 => .ok (.f64 x)
    | some _, some n, .i32 => .ok (.i32 n.toInt32)
    | some _, some n, _ => .ok (.u32 (n % UInt32.size).toNat.toUInt32)
    | some x, none, .i32 => .ok (.i32 x.toInt32)
    | some x, none, _ => .ok (.u32 x.toUInt32)

/-- The values that arguments contribute to a vector: a vector contributes its components. -/
def spread : Value → List Value
  | .vector cs => cs
  | v => [v]

def castVector (n : UInt32) (p : Primitive) (args : List Value) :
    Except EvalError (List Value) := do
  let given := args.flatMap spread
  let parts := match given with
    | [v] => List.replicate (max n.toNat 1) v
    | vs => vs
  if parts.length ≠ n.toNat then
    throw (.componentCount (.vector n p) n parts.length)
  parts.mapM (convert · p)

/-- Cuts a list into pieces of one length. -/
def pieces {α : Type} (size : Nat) : Nat → List α → List (List α)
  | 0, _ => []
  | n + 1, xs => xs.take size :: pieces size n (xs.drop size)

/-- A matrix of another shape: entries that the old one lacks are those of the identity. -/
def resize (columns : List (List Value)) (c r : UInt32) (p : Primitive) : Except EvalError Value := do
  let entry (i j : Nat) : Value :=
    match columns[i]? >>= (·[j]?) with
    | some v => v
    | none => scalar p (i == j)
  let cols ← (List.range c.toNat).mapM fun i =>
    (List.range r.toNat).mapM fun j => convert (entry i j) p
  return .matrix cols

def isMatrix : Value → Bool
  | .matrix _ => true
  | _ => false

/-- Converts a value to a type or builds one from several. -/
def cast (target : Ty) (args : List Value) : Except EvalError Value :=
  match target, args with
  | .prim p, [v] => convert v p
  | .prim p, _ => .error (.argumentCount p args.length)
  | .vector n p, _ => do return .vector (← castVector n p args)
  | .matrix c r p, [.matrix cols] => resize cols c r p
  | .matrix c r p, _ => do
    if args.any isMatrix then throw (.severalMatrices (.matrix c r p))
    let scalars := args.flatMap spread
    if scalars.length ≠ (c * r).toNat then
      throw (.componentCount (.matrix c r p) (c * r) scalars.length)
    let cols ← (pieces r.toNat c.toNat scalars).mapM (castVector r p)
    return .matrix cols
  | _, _ => .error .notConstant

/-- Selects components of a vector; a scalar has one component. -/
def swizzle (v : Value) (components : List UInt32) : Except EvalError Value := do
  let source ← match v with
    | .vector cs => pure cs
    | .matrix _ | .absent => throw (EvalError.swizzleType v.type)
    | _ => pure [v]
  let picked ← components.mapM fun c =>
    match source[c.toNat]? with
    | some x => .ok x
    | none => .error (EvalError.swizzleRange c v.type)
  match picked with
  | [x] => return x
  | xs => return .vector xs

/-- A component of a vector or a column of a matrix. -/
def index (v : Value) (i : Int) : Except EvalError Value :=
  match v with
  | .vector cs => element cs id
  | .matrix cols => element cols .vector
  | _ => .error (.indexTarget v.type)
where
  element {α : Type} (xs : List α) (f : α → Value) : Except EvalError Value :=
    match if i < 0 then none else xs[i.toNat]? with
    | some x => .ok (f x)
    | none => .error (.indexRange i v.type)

end Value

end Shading
