import Shading.Backend.Specialization
import Shading.Glsl.Name
import Shading.Glsl.Version

/-! What is known while GLSL is generated, and the names of types and constants in it. -/
namespace Shading.Glsl

/-- The module that code is generated for, and what for. -/
structure Context where
  settings : Settings
  source : Specialization

def Context.version (c : Context) : Version := c.settings.targetVersion

/-- The names that were given so far, and what has to stand before the next statement. -/
structure State where
  namer : Namer := {}
  structs : List (Int × Text) := []
  constants : List (Int × Text) := []
  vars : List (Int × Text) := []
  functions : List (Int × Text) := []
  /-- declarations of results that are used more than once -/
  pending : List Text := []
  usesDouble : Bool := false

end Glsl

/-- A piece of GLSL that is being generated. -/
abbrev Glsl := ReaderT Glsl.Context (StateT Glsl.State (Except BackendError))

namespace Glsl

def fail {α : Type} (span : Span) (o : Obstacle) : Glsl α := throw (.located span o)

/-- Takes over a form; without one, there is an obstacle at the place. -/
def formed {α : Type} (span : Span) (obstacle : FormError → Obstacle) : Except FormError α → Glsl α
  | .ok a => return a
  | .error e => fail span (obstacle e)

/-- Takes over a form or the reason why there is none. -/
def formedHere {α : Type} : Except FormError α → Glsl α
  | .ok a => return a
  | .error e => throw (.unlocated e)

/-- Gives a name to an identifier of the source. -/
def freshName (identifier : Text) : Glsl Text := do
  let (name, namer) := (← get).namer.fresh identifier
  modify fun s => { s with namer }
  return name

/-- Gives a name of the generator's own. -/
def uniqueName (name : Text) : Glsl Text := do
  let (name, namer) := (← get).namer.unique name
  modify fun s => { s with namer }
  return name

/-- Takes the declarations that have to stand before the next line. -/
def takePending : Glsl (List Text) := do
  let lines := (← get).pending
  modify fun s => { s with pending := [] }
  return lines

def indent (lines : List Text) : List Text := lines.map fun l => "    " ++ l

def closing : Text := "\x7d"

/-- A line that opens a block, the lines inside the block, and what follows them. -/
def block (head : Text) (body tail : List Text) : List Text := (head ++ "\x7b") :: indent body ++ tail

def scalarName : Primitive → Text
  | .bool => "bool" | .i32 => "int" | .u32 => "uint" | .f64 => "double"
  | .f32 | .reserved .. => "float"

/-- What stands before the name of a vector or a sampler type. -/
def scalarMark : Primitive → Text
  | .bool => "b" | .i32 => "i" | .u32 => "u" | .f64 => "d"
  | .f32 | .reserved .. => []

def vectorName (n : UInt32) (p : Primitive) : Text := scalarMark p ++ "vec" ++ Text.ofNat n.toNat

def matrixName (c r : UInt32) (p : Primitive) : Text :=
  (if p == .f64 then Text.ofString "d" else []) ++ "mat" ++ Text.ofNat c.toNat ++
    if c = r then [] else Text.byte 'x' :: Text.ofNat r.toNat

/-- Depth samplers are read as others are, since sampling gives a vector. -/
def samplerName (dim : ImageDim) (p : Primitive) : Text :=
  let mark := if p == .f64 || p == .bool then [] else scalarMark p
  let dimension : Text := match dim with
    | .one => "1D" | .two => "2D" | .three => "3D"
    | .cube | .reserved .. => "Cube"
  mark ++ "sampler" ++ dimension

/-- The sizes of an array that stand behind a name. -/
def arraySuffix : Ty → Text
  | .array t n => (if n = 0 then Text.ofString "[]" else "[" ++ Text.ofNat n.toNat ++ "]") ++ arraySuffix t
  | _ => []

/-- The name of a type that is no array. -/
def elementName (structs : List (Int × Text)) : Ty → Except FormError Text
  | .unknown | .void => .ok "void"
  | .prim p => .ok (scalarName p)
  | .vector n p => .ok (vectorName n p)
  | .matrix c r p => .ok (matrixName c r p)
  | .struct r =>
    match structs.lookup r.id with
    | some name => .ok name
    | none => .error (.undeclaredStruct r.name)
  | .sampler dim p _ => .ok (samplerName dim p)
  | t => .error (.noEquivalent t)

/-- Does a type need numbers of 64 bits? -/
def isDouble (t : Ty) : Bool := t.scalar? == some .f64

def noteDouble (needed : Bool) : Glsl Unit :=
  modify fun s => { s with usesDouble := s.usesDouble || needed }

/-- The name of a type, with the sizes of arrays behind it. -/
def typeName (t : Ty) : Glsl (Except FormError Text) := do
  noteDouble (isDouble t.innermost)
  return (elementName (← get).structs t.innermost).map (· ++ arraySuffix t)

/-- A type and a name, with the sizes of arrays behind the name. -/
def declaration (t : Ty) (name : Text) : Glsl (Except FormError Text) := do
  noteDouble (isDouble t.innermost)
  return (elementName (← get).structs t.innermost).map (· ++ " " ++ name ++ arraySuffix t)

/-- A number with at least a point or an exponent. -/
def floatText (digits : Text) : Text :=
  if digits.any (Text.ofString ".eE").contains then digits else digits ++ ".0"

mutual

/-- The text of a constant. -/
def literalText : Value → Except FormError Text
  | .absent => .error (.noConstant "<nil>")
  | .bool b => .ok (Text.ofBool b)
  | .i32 n => .ok (Text.ofInt n.toInt)
  | .u32 n => .ok (Text.ofNat n.toNat ++ "u")
  | .f32 x => .ok (floatText x.text)
  | .f64 x => .ok (floatText x.text ++ "lf")
  | .vector cs => do
    let name ← elementName [] (Value.vector cs).type
    return name ++ "(" ++ Text.join ", " (← literalTexts cs) ++ ")"
  | .matrix cols => do
    let name ← elementName [] (Value.matrix cols).type
    return name ++ "(" ++ Text.join ", " (← columnTexts cols) ++ ")"

def literalTexts : List Value → Except FormError (List Text)
  | [] => .ok []
  | v :: vs => do
    let t ← literalText v
    return t :: (← literalTexts vs)

def columnTexts : List (List Value) → Except FormError (List Text)
  | [] => .ok []
  | c :: cs => do
    let name ← elementName [] (Value.vector c).type
    let parts ← literalTexts c
    return (name ++ "(" ++ Text.join ", " parts ++ ")") :: (← columnTexts cs)

end

/-- The text of a constant, which may need numbers of 64 bits. -/
def literal (v : Value) : Glsl Text := do
  noteDouble v.holdsDouble
  formedHere (literalText v)

/-- The declaration of a constant. -/
def constantLine (name : Text) (v : Value) : Glsl Text := do
  let decl ← formedHere (← declaration v.type name)
  return "const " ++ decl ++ " = " ++ (← literal v) ++ ";"

end Glsl

end Shading
