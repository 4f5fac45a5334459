import Shading.Reserved
import Shading.Text

/-! The settings that attributes of declarations choose from. -/
namespace Shading

/-- What a fragment shader does to the depth. -/
inductive DepthWrite
  | replace | greater | less | unchanged
  | reserved (code : Reserved 4)
deriving DecidableEq, Repr

namespace DepthWrite

def named : List DepthWrite := [replace, greater, less, unchanged]

def ofCode (c : UInt8) : DepthWrite :=
  if h : 4 ≤ c then .reserved ⟨c, h⟩ else named.getD c.toNat .replace

def code : DepthWrite → UInt8
  | .reserved c => c.code
  | d => (named.idxOf d).toUInt8

def text : DepthWrite → Text
  | .replace => "replace" | .greater => "greater" | .less => "less" | .unchanged => "unchanged"
  | .reserved c => "DepthWriteMode(" ++ Text.ofNat c.code.toNat ++ ")"

def ofName? (name : Text) : Option DepthWrite := named.find? fun d => d.text == name

end DepthWrite

/-- How the members of a structure are placed in a buffer. -/
inductive Layout
  | std140 | std430
  | reserved (code : Reserved 2)
deriving DecidableEq, Repr

namespace Layout

def named : List Layout := [std140, std430]

def ofCode (c : UInt8) : Layout :=
  if h : 2 ≤ c then .reserved ⟨c, h⟩ else named.getD c.toNat .std140

def code : Layout → UInt8
  | .reserved c => c.code
  | l => (named.idxOf l).toUInt8

def text : Layout → Text
  | .std140 => "std140" | .std430 => "std430"
  | .reserved c => "MemoryLayout(" ++ Text.ofNat c.code.toNat ++ ")"

def ofName? (name : Text) : Option Layout := named.find? fun l => l.text == name

end Layout

/-- Whether a loop should be unrolled. -/
inductive Unroll
  | hint | always | never
  | reserved (code : Reserved 3)
deriving DecidableEq, Repr

namespace Unroll

def named : List Unroll := [hint, always, never]

def ofCode (c : UInt8) : Unroll :=
  if h : 3 ≤ c then .reserved ⟨c, h⟩ else named.getD c.toNat .hint

def code : Unroll → UInt8
  | .reserved c => c.code
  | u => (named.idxOf u).toUInt8

def text : Unroll → Text
  | .hint => "hint" | .always => "always" | .never => "never"
  | .reserved c => "LoopUnroll(" ++ Text.ofNat c.code.toNat ++ ")"

def ofName? (name : Text) : Option Unroll := named.find? fun u => u.text == name

end Unroll

end Shading
