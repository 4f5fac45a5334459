import Shading.Intrinsic
import Shading.Operator
import Shading.Spirv.Opcode
import Shading.Type

/-! The operations that operators, conversions and built-in functions stand for. -/
namespace Shading.Spirv

/-- One choice for each kind of scalar. -/
private def choose {α : Type} (bool float signed unsigned : Option α) : Primitive → Option α
  | .bool => bool
  | .f32 | .f64 => float
  | .i32 => signed
  | .u32 => unsigned
  | .reserved .. => none

/-- The operation that compares scalars or vectors of scalars. -/
def comparison? : BinaryOp → Primitive → Option Opcode
  | .eq => choose (some .opLogicalEqual) (some .opFOrdEqual) (some .opIEqual) (some .opIEqual)
  | .ne => choose (some .opLogicalNotEqual) (some .opFUnordNotEqual) (some .opINotEqual) (some .opINotEqual)
  | .lt => choose none (some .opFOrdLessThan) (some .opSLessThan) (some .opULessThan)
  | .le => choose none (some .opFOrdLessThanEqual) (some .opSLessThanEqual) (some .opULessThanEqual)
  | .gt => choose none (some .opFOrdGreaterThan) (some .opSGreaterThan) (some .opUGreaterThan)
  | .ge => choose none (some .opFOrdGreaterThanEqual) (some .opSGreaterThanEqual) (some .opUGreaterThanEqual)
  | _ => fun _ => none

def bitwise (op : BinaryOp) (p : Primitive) : Opcode :=
  match op with
  | .bitAnd => .opBitwiseAnd
  | .bitOr => .opBitwiseOr
  | .bitXor => .opBitwiseXor
  | .shiftLeft => .opShiftLeftLogical
  | _ => if p = .i32 then .opShiftRightArithmetic else .opShiftRightLogical

/-- The remainder has the sign of the divisor for floats and that of the dividend for integers. -/
def arithmetic (op : BinaryOp) (p : Primitive) : Opcode :=
  if p.isFloat then
    match op with
    | .add => .opFAdd
    | .sub => .opFSub
    | .mul => .opFMul
    | .div => .opFDiv
    | _ => .opFMod
  else
    match op with
    | .add => .opIAdd
    | .sub => .opISub
    | .mul => .opIMul
    | .div => if p = .i32 then .opSDiv else .opUDiv
    | _ => if p = .i32 then .opSRem else .opUMod

/-- The operation that converts scalars, or none if there is nothing to do. -/
def conversion? (source target : Primitive) : Option Opcode :=
  if source = target then none
  else if source.isFloat && target.isFloat then some .opFConvert
  else if source.isFloat && target = .i32 then some .opConvertFToS
  else if source.isFloat && target = .u32 then some .opConvertFToU
  else if source = .i32 && target.isFloat then some .opConvertSToF
  else if source = .u32 && target.isFloat then some .opConvertUToF
  else some .opBitcast

/-- The number of a built-in function in the set of extended instructions. -/
def extended? (f : Intrinsic) (p : Primitive) : Option UInt32 :=
  match f with
  | .abs => choose none (some 4) (some 5) none p
  | .sign => choose none (some 6) (some 7) none p
  | .min => choose none (some 37) (some 39) (some 38) p
  | .max => choose none (some 40) (some 42) (some 41) p
  | .clamp => choose none (some 43) (some 45) (some 44) p
  | .round => some 1
  | .trunc => some 3
  | .floor => some 8
  | .ceil => some 9
  | .fract => some 10
  | .radians => some 11
  | .degrees => some 12
  | .sin => some 13
  | .cos => some 14
  | .tan => some 15
  | .asin => some 16
  | .acos => some 17
  | .atan => some 18
  | .pow => some 26
  | .exp => some 27
  | .log => some 28
  | .exp2 => some 29
  | .log2 => some 30
  | .sqrt => some 31
  | .inverseSqrt => some 32
  | .determinant => some 33
  | .inverse => some 34
  | .lerp => some 46
  | .step => some 48
  | .smoothStep => some 49
  | .length => some 66
  | .distance => some 67
  | .cross => some 68
  | .normalize => some 69
  | .reflect => some 71
  | _ => none

end Shading.Spirv
