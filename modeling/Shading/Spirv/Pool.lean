import Shading.Backend.Error
import Shading.Spirv.Builder

/-! Types and constants of a module, each of which is declared once. -/
namespace Shading.Spirv

/-- A module under construction with the types and constants that it declares. -/
structure Pool where
  builder : Builder
  /-- Do structures get names? -/
  debug : Bool := false
  /-- by their keys -/
  types : List (Text × UInt32) := []
  /-- by storage class and type -/
  pointers : List ((UInt32 × UInt32) × UInt32) := []
  /-- by the texts of the types of the result and of the parameters -/
  functionTypes : List (Text × UInt32) := []
  /-- by their keys -/
  constants : List (Text × UInt32) := []

/-- Steps that declare what they need. -/
abbrev Pooling := StateT Pool (Except FormError)

namespace Pool

mutual

/-- The text by which types are told apart. Structures count by their names and members, as far as the
text shows where one ends and the next starts; all types of functions are the same, and so are all
buffers of a kind inside another type. -/
def key : Ty → Text
  | .unknown | .void => "void"
  | .prim p => "scalar:" ++ Text.ofNat p.code.toNat
  | .vector n p => "vec:" ++ Text.ofNat n.toNat ++ ":scalar:" ++ Text.ofNat p.code.toNat
  | .matrix c r p =>
    "mat:" ++ Text.ofNat c.toNat ++ "x" ++ Text.ofNat r.toNat ++ ":scalar:" ++ Text.ofNat p.code.toNat
  | .array t n =>
    let size : Text := if n = 0 then "runtime" else Text.ofNat n.toNat
    "array:" ++ size ++ ":" ++ key t
  | .struct r => "struct:" ++ r.name ++ memberKeys r.members
  | .sampler d p depth =>
    let kind : Text := if depth then "true" else "false"
    "sampler:" ++ Text.ofNat d.code.toNat ++ ":" ++ Text.ofNat p.code.toNat ++ ":" ++ kind
  | .uniform _ => "unknown:ast.UniformType"
  | .storage _ => "unknown:ast.StorageType"
  | .func .. => "unknown:ast.FunctionType"
  | .intrinsic _ => "unknown:ast.IntrinsicFunctionType"

def memberKeys : List (Text × Ty) → Text
  | [] => []
  | (name, t) :: members => ":m(" ++ name ++ "," ++ key t ++ ")" ++ memberKeys members

end

mutual

/-- The text by which constants are told apart. Floats count by their bits. -/
def constantKey : Value → Text
  | .absent => []
  | .bool b => key (.prim .bool) ++ "=" ++ (Value.bool b).text
  | .i32 n => key (.prim .i32) ++ "=" ++ (Value.i32 n).text
  | .u32 n => key (.prim .u32) ++ "=" ++ (Value.u32 n).text
  | .f32 x => "f32:" ++ Text.hex 0 x.bits.toNat
  | .f64 x => "f64:" ++ Text.hex 0 x.bits.toNat
  | .vector cs => "vec(" ++ Text.join "," (constantKeys cs) ++ ")"
  | .matrix cols => "mat(" ++ Text.join "," (columnKeys cols) ++ ")"

def constantKeys : List Value → List Text
  | [] => []
  | v :: vs => constantKey v :: constantKeys vs

def columnKeys : List (List Value) → List Text
  | [] => []
  | c :: cs => ("vec(" ++ Text.join "," (constantKeys c) ++ ")") :: columnKeys cs

end

/-- The text by which the types of functions are told apart, from the numbers of the types of the result and of
the parameters. -/
def functionKey (result : UInt32) (params : List UInt32) : Text :=
  Text.join "," ((result :: params).map fun id => Text.ofNat id.toNat)

def build {α : Type} (step : Build α) : Pooling α := fun p =>
  let (a, b) := step p.builder
  .ok (a, { p with builder := b })

/-- The number of a type, which is declared first if it is not declared yet. -/
def declaredType (t : Ty) (declare : Pooling UInt32) : Pooling UInt32 := do
  match (← get).types.lookup (key t) with
  | some id => return id
  | none =>
    let id ← declare
    modify fun p => { p with types := (key t, id) :: p.types }
    return id

def voidId : Pooling UInt32 := declaredType .void (build Builder.typeVoid)

def primitiveId (p : Primitive) : Pooling UInt32 :=
  declaredType (.prim p) do
    match p with
    | .bool => build Builder.typeBool
    | .i32 => build (Builder.typeInt 32 true)
    | .u32 => build (Builder.typeInt 32 false)
    | .f32 => build (Builder.typeFloat 32)
    | .f64 =>
      build (Builder.capability Capability.float64)
      build (Builder.typeFloat 64)
    | .reserved .. => throw (.primitive p)

def vectorId (n : UInt32) (p : Primitive) : Pooling UInt32 :=
  declaredType (.vector n p) do
    let component ← primitiveId p
    build (Builder.typeVector component n)

def matrixId (c r : UInt32) (p : Primitive) : Pooling UInt32 :=
  declaredType (.matrix c r p) do
    let column ← vectorId r p
    build (Builder.typeMatrix column c)

def dimension : ImageDim → UInt32
  | .two => Dim.two
  | .three => Dim.three
  | .cube => Dim.cube
  | .one | .reserved .. => Dim.one

def samplerId (dim : ImageDim) (p : Primitive) (depth : Bool) : Pooling UInt32 :=
  declaredType (.sampler dim p depth) do
    let sampled ← primitiveId p
    if dim == .one then build (Builder.capability Capability.sampled1D)
    let image ← build (Builder.typeImage sampled (dimension dim) depth)
    build (Builder.typeSampledImage image)

/-- The number of a constant, which is declared first if it is not declared yet. -/
def declaredConstant (v : Value) (declare : Pooling UInt32) : Pooling UInt32 := do
  match (← get).constants.lookup (constantKey v) with
  | some id => return id
  | none =>
    let id ← declare
    modify fun p => { p with constants := (constantKey v, id) :: p.constants }
    return id

/-- The type of a constant. -/
def valueTypeId (v : Value) : Pooling UInt32 :=
  match v.type with
  | .prim p => primitiveId p
  | .vector n p => vectorId n p
  | .matrix c r p => matrixId c r p
  | t => throw (.unsupported t)

mutual

/-- The number of a constant. -/
def constantId : Value → Pooling UInt32
  | .absent => throw (.noConstant "<nil>")
  | .bool b => declaredConstant (.bool b) do
    build (Builder.constantBool (← primitiveId .bool) b)
  | .i32 n => declaredConstant (.i32 n) do
    build (Builder.constant (← primitiveId .i32) [n.toUInt32])
  | .u32 n => declaredConstant (.u32 n) do
    build (Builder.constant (← primitiveId .u32) [n])
  | .f32 x => declaredConstant (.f32 x) do
    build (Builder.constantSingle (← primitiveId .f32) x)
  | .f64 x => declaredConstant (.f64 x) do
    build (Builder.constantDouble (← primitiveId .f64) x)
  | .vector cs => declaredConstant (.vector cs) do
    let type ← valueTypeId (.vector cs)
    build (Builder.constantComposite type (← constantIds cs))
  | .matrix cols => declaredConstant (.matrix cols) do
    let type ← valueTypeId (.matrix cols)
    build (Builder.constantComposite type (← columnIds cols))

def constantIds : List Value → Pooling (List UInt32)
  | [] => return []
  | v :: vs => do
    let id ← constantId v
    return id :: (← constantIds vs)

def columnIds : List (List Value) → Pooling (List UInt32)
  | [] => return []
  | c :: cs => do
    let id ← declaredConstant (.vector c) do
      let type ← valueTypeId (.vector c)
      build (Builder.constantComposite type (← constantIds c))
    return id :: (← columnIds cs)

end

/-- The names of a structure and of its members. -/
def nameMembers (id : UInt32) (name : Text) (members : List Text) : Pooling Unit := do
  build (Builder.name id name)
  members.zipIdx.forM fun (m, i) => build (Builder.memberName id i.toUInt32 m)

mutual

/-- The number of a type. A buffer has the type of what it holds. -/
def typeId : Ty → Pooling UInt32
  | .unknown | .void => voidId
  | .prim p => primitiveId p
  | .vector n p => vectorId n p
  | .matrix c r p => matrixId c r p
  | .array t n => declaredType (.array t n) do
    let element ← typeId t
    if n = 0 then build (Builder.typeRuntimeArray element)
    else build (Builder.typeArray element (← constantId (.u32 n)))
  | .struct r | .uniform r | .storage r => declaredType (.struct r) do
    let id ← build (Builder.typeStruct (← memberIds r.name r.members))
    if (← get).debug then nameMembers id r.name (r.members.map (·.1))
    return id
  | .sampler dim p depth => samplerId dim p depth
  | .func id name params result => throw (.notAValue (.func id name params result))
  | .intrinsic i => throw (.notAValue (.intrinsic i))

def memberIds (struct : Text) : List (Text × Ty) → Pooling (List UInt32)
  | [] => return []
  | (name, t) :: members => do
    let id ← fun p => (typeId t p).mapError (.inMember struct name)
    return id :: (← memberIds struct members)

end

/-- The number of a pointer type. -/
def pointerType (storage base : UInt32) : Pooling UInt32 := do
  match (← get).pointers.lookup (storage, base) with
  | some id => return id
  | none =>
    let id ← build (Builder.typePointer storage base)
    modify fun p => { p with pointers := ((storage, base), id) :: p.pointers }
    return id

/-- The number of the type of pointers to values of a type. -/
def pointerTo (storage : UInt32) (t : Ty) : Pooling UInt32 := do
  let base ← typeId t
  pointerType storage base

/-- The number of a function type. -/
def functionType (result : UInt32) (params : List UInt32) : Pooling UInt32 := do
  match (← get).functionTypes.lookup (functionKey result params) with
  | some id => return id
  | none =>
    let id ← build (Builder.typeFunction result params)
    modify fun p => { p with functionTypes := (functionKey result params, id) :: p.functionTypes }
    return id

end Pool

end Shading.Spirv
