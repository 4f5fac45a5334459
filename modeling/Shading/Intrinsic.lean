import Shading.Reserved
import Shading.Text

/-! Built-in functions. -/
namespace Shading

/-- A function that the language provides. -/
inductive Intrinsic
  | abs | all | any | acos | asin | atan | size | ceil | clamp | cos | cross | degrees | determinant
  | distance | dot | exp | exp2 | floor | fract | inverse | inverseSqrt | length | lerp | log | log2
  | max | min | normalize | pow | radians | reflect | round | sample | sign | sin | smoothStep | sqrt
  | step | tan | transpose | trunc
  | reserved (code : Reserved 41)
deriving DecidableEq, Repr

namespace Intrinsic

/-- The functions in the order of their codes. -/
def named : List Intrinsic :=
  [abs, all, any, acos, asin, atan, size, ceil, clamp, cos, cross, degrees, determinant, distance, dot,
   exp, exp2, floor, fract, inverse, inverseSqrt, length, lerp, log, log2, max, min, normalize, pow,
   radians, reflect, round, sample, sign, sin, smoothStep, sqrt, step, tan, transpose, trunc]

def ofCode (c : UInt8) : Intrinsic :=
  if h : 41 ≤ c then .reserved ⟨c, h⟩ else named.getD c.toNat .abs

def code : Intrinsic → UInt8
  | .reserved c => c.code
  | i => (named.idxOf i).toUInt8

def text : Intrinsic → Text
  | .abs => "abs" | .all => "all" | .any => "any" | .acos => "acos" | .asin => "asin"
  | .atan => "atan" | .size => "Size" | .ceil => "ceil" | .clamp => "clamp" | .cos => "cos"
  | .cross => "cross" | .degrees => "degrees" | .determinant => "determinant"
  | .distance => "distance" | .dot => "dot" | .exp => "exp" | .exp2 => "exp2" | .floor => "floor"
  | .fract => "fract" | .inverse => "inverse" | .inverseSqrt => "inversesqrt" | .length => "length"
  | .lerp => "lerp" | .log => "log" | .log2 => "log2" | .max => "max" | .min => "min"
  | .normalize => "normalize" | .pow => "pow" | .radians => "radians" | .reflect => "reflect"
  | .round => "round" | .sample => "Sample" | .sign => "sign" | .sin => "sin"
  | .smoothStep => "smoothstep" | .sqrt => "sqrt" | .step => "step" | .tan => "tan"
  | .transpose => "transpose" | .trunc => "trunc"
  | .reserved c => "IntrinsicType(" ++ Text.ofNat c.code.toNat ++ ")"

/-- Is the function called on an object instead of by its name alone? -/
def isMethod : Intrinsic → Bool
  | .size | .sample => true
  | _ => false

/-- The function that a name calls. -/
def ofName? (name : Text) : Option Intrinsic :=
  named.find? fun i => !i.isMethod && i.text == name

end Intrinsic

end Shading
