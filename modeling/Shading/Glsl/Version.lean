import Shading.Failure

/-! Versions of GLSL. -/
namespace Shading.Glsl

/-- A version of desktop GLSL or of GLSL ES. -/
structure Version where
  major : UInt8
  minor : UInt8
  es : Bool := false
deriving DecidableEq, Repr

namespace Version

def v330 : Version := ⟨3, 30, false⟩

def es300 : Version := ⟨3, 0, true⟩

/-- The version as one number, such as 330. -/
def number (v : Version) : Nat := v.major.toNat * 100 + v.minor.toNat

/-- The version as it is written in the first line of a shader. -/
def text (v : Version) : Text :=
  let digits := Text.ofNat v.minor.toNat
  Text.ofNat v.major.toNat ++ Text.times (2 - digits.length) "0" ++ digits ++
    if v.es then Text.ofString " es" else " core"

/-- Reads a version from its number. -/
def ofNumber (n : Int) (es : Bool) : Except Failure Version :=
  if n < 100 ∨ 1000 ≤ n then .error (.plain ("invalid GLSL version " ++ Text.ofInt n))
  else
    let v : Version := ⟨(n.toNat / 100).toUInt8, (n.toNat % 100).toUInt8, es⟩
    if es && v.number < 300 then
      .error (.plain ("GLSL ES " ++ Text.ofInt n ++ " is not supported, the minimum is 300"))
    else if !es && v.number < 330 then
      .error (.plain ("GLSL " ++ Text.ofInt n ++ " is not supported, the minimum is 330"))
    else .ok v

def atLeast (v : Version) (desktop es : Nat) : Bool :=
  if v.es then es ≤ v.number else desktop ≤ v.number

def supportsCompute (v : Version) : Bool := v.atLeast 430 310

def supportsStorageBuffers (v : Version) : Bool := v.atLeast 430 310

/-- May a resource have a binding in its layout? -/
def supportsExplicitBinding (v : Version) : Bool := v.atLeast 420 310

/-- May what a vertex shader passes to a fragment shader have a location? -/
def supportsVaryingLocations (v : Version) : Bool := v.atLeast 410 310

def supportsFragmentLayouts (v : Version) : Bool := v.atLeast 420 310

def supportsDouble (v : Version) : Bool := !v.es && 400 ≤ v.number

end Version

/-- Numbers for pairs of a set and a binding. -/
abbrev BindingPoints := Table (fun (r : UInt32 × UInt32) => r.1.toNat * UInt32.size + r.2.toNat) UInt32

def BindingPoints.empty : BindingPoints := {}

/-- What GLSL is generated for. -/
structure Settings where
  stage : Stage := .fragment
  /-- the name of the entry point; the first one of the stage if it is empty -/
  entryPoint : Text := []
  values : OptionValues := {}
  version : Version := .v330
  /-- which version is meant by one whose major number is zero -/
  es : Bool := false
  flipY : Bool := false
  /-- maps depths from 0 to 1 to those from -1 to 1 -/
  remapZ : Bool := false
  /-- binding points for pairs of a set and a binding -/
  bindings : BindingPoints := BindingPoints.empty

namespace Settings

def targetVersion (s : Settings) : Version :=
  if s.version.major != 0 then s.version else if s.es then .es300 else .v330

/-- The binding point of a resource. -/
def bindingPoint (s : Settings) (set binding : UInt32) : UInt32 :=
  (s.bindings.get? (set, binding)).getD binding

end Settings

end Shading.Glsl
