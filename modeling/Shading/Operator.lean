import Shading.Reserved
import Shading.Text

/-! Operators. A code that no operator has is kept as it is, so that a stored module can be read and
written again unchanged. -/
namespace Shading

/-- An operator of two operands. -/
inductive BinaryOp
  | add | sub | mul | div | mod
  | eq | ne | lt | le | gt | ge
  | and | or
  | bitAnd | bitOr | bitXor | shiftLeft | shiftRight
  | reserved (code : Reserved 18)
deriving DecidableEq, Repr

namespace BinaryOp

/-- The operators in the order of their codes. -/
def named : List BinaryOp :=
  [add, sub, mul, div, mod, eq, ne, lt, le, gt, ge, and, or, bitAnd, bitOr, bitXor, shiftLeft, shiftRight]

def ofCode (c : UInt8) : BinaryOp :=
  if h : 18 ≤ c then .reserved ⟨c, h⟩ else named.getD c.toNat .add

def code : BinaryOp → UInt8
  | .reserved c => c.code
  | op => (named.idxOf op).toUInt8

def text : BinaryOp → Text
  | .add => "+" | .sub => "-" | .mul => "*" | .div => "/" | .mod => "%"
  | .eq => "==" | .ne => "!=" | .lt => "<" | .le => "<=" | .gt => ">" | .ge => ">="
  | .and => "&&" | .or => "||"
  | .bitAnd => "&" | .bitOr => "|" | .bitXor => "^" | .shiftLeft => "<<" | .shiftRight => ">>"
  | .reserved c => "BinaryType(" ++ Text.ofNat c.code.toNat ++ ")"

/-- Does the operator compare two operands of one type? -/
def isComparison : BinaryOp → Bool
  | .eq | .ne | .lt | .le | .gt | .ge => true
  | _ => false

def isLogical : BinaryOp → Bool
  | .and | .or => true
  | _ => false

/-- Does the operator apply to integers only? -/
def isBitwise : BinaryOp → Bool
  | .bitAnd | .bitOr | .bitXor | .shiftLeft | .shiftRight => true
  | _ => false

end BinaryOp

/-- An operator of one operand. -/
inductive UnaryOp
  | minus | plus | not | bitNot
  | reserved (code : Reserved 4)
deriving DecidableEq, Repr

namespace UnaryOp

def named : List UnaryOp := [minus, plus, not, bitNot]

def ofCode (c : UInt8) : UnaryOp :=
  if h : 4 ≤ c then .reserved ⟨c, h⟩ else named.getD c.toNat .minus

def code : UnaryOp → UInt8
  | .reserved c => c.code
  | op => (named.idxOf op).toUInt8

def text : UnaryOp → Text
  | .minus => "-" | .plus => "+" | .not => "!" | .bitNot => "~"
  | .reserved c => "UnaryType(" ++ Text.ofNat c.code.toNat ++ ")"

end UnaryOp

/-- An assignment, simple or combined with an operator. -/
inductive AssignOp
  | simple | add | sub | mul | div | mod | and | or
  | reserved (code : Reserved 8)
deriving DecidableEq, Repr

namespace AssignOp

def named : List AssignOp := [simple, add, sub, mul, div, mod, and, or]

def ofCode (c : UInt8) : AssignOp :=
  if h : 8 ≤ c then .reserved ⟨c, h⟩ else named.getD c.toNat .simple

def code : AssignOp → UInt8
  | .reserved c => c.code
  | op => (named.idxOf op).toUInt8

/-- The operator that a compound assignment applies before it stores. -/
def binary? : AssignOp → Option BinaryOp
  | .add => some .add | .sub => some .sub | .mul => some .mul | .div => some .div
  | .mod => some .mod | .and => some .and | .or => some .or
  | .simple | .reserved .. => none

def text (op : AssignOp) : Text :=
  match op, op.binary? with
  | _, some b => b.text ++ "="
  | .reserved c, none => "AssignType(" ++ Text.ofNat c.code.toNat ++ ")"
  | _, none => "="

end AssignOp

end Shading
