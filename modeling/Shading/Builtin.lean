import Shading.Reserved
import Shading.Text
import Shading.Type

/-! Pipeline stages and sets of them. -/
namespace Shading

/-- A pipeline stage that an entry point can implement. -/
inductive Stage
  | vertex | fragment | compute
  | reserved (code : Reserved 3)
deriving DecidableEq, Repr, Inhabited

namespace Stage

/-- The stages in pipeline order. -/
def named : List Stage := [vertex, fragment, compute]

def ofCode (c : UInt8) : Stage :=
  if h : 3 ≤ c then .reserved ⟨c, h⟩ else named.getD c.toNat .vertex

def code : Stage → UInt8
  | .reserved c => c.code
  | s => (named.idxOf s).toUInt8

def text : Stage → Text
  | .vertex => "vert" | .fragment => "frag" | .compute => "compute"
  | .reserved c => "ShaderStage(" ++ Text.ofNat c.code.toNat ++ ")"

/-- The other name under which a stage may be written. -/
private def alternative : Stage → Text
  | .vertex => "vertex" | .fragment => "fragment" | .compute => "comp"
  | .reserved .. => []

def ofName? (name : Text) : Option Stage :=
  named.find? fun s => s.text == name || s.alternative == name

end Stage

/-- A set of stages, one bit for each code below eight. -/
structure StageSet where
  bits : UInt8
deriving DecidableEq, Repr

namespace StageSet

def empty : StageSet := ⟨0⟩

/-- The set of one stage. A stage without a bit is in no set. -/
def single (s : Stage) : StageSet := ⟨(1 <<< s.code.toNat : Nat).toUInt8⟩

def union (a b : StageSet) : StageSet := ⟨a.bits ||| b.bits⟩

/-- The set of some stages. -/
def ofStages (ss : List Stage) : StageSet := (ss.map single).foldl union empty

def all : StageSet := ofStages Stage.named

def has (f : StageSet) (s : Stage) : Bool := f.bits &&& (single s).bits != 0

/-- The known stages of the set in pipeline order. -/
def stages (f : StageSet) : List Stage := Stage.named.filter f.has

end StageSet

-- Values that the pipeline provides to an entry point or takes from it.

inductive Builtin
  | fragCoord | fragDepth | frontFacing | position | vertexIndex | instanceIndex
  | globalInvocation | localInvocation | localIndex | workgroup | workgroupCount
  | reserved (code : Reserved 11)
deriving DecidableEq, Repr

/-- Where a builtin may appear, whether the entry point writes it, and what it holds. -/
structure BuiltinInfo where
  name : Text
  stage : Stage
  output : Bool
  type : Ty

namespace Builtin

def named : List Builtin :=
  [fragCoord, fragDepth, frontFacing, position, vertexIndex, instanceIndex, globalInvocation,
   localInvocation, localIndex, workgroup, workgroupCount]

def ofCode (c : UInt8) : Builtin :=
  if h : 11 ≤ c then .reserved ⟨c, h⟩ else named.getD c.toNat .fragCoord

def code : Builtin → UInt8
  | .reserved c => c.code
  | b => (named.idxOf b).toUInt8

def info : Builtin → BuiltinInfo
  | .fragCoord => ⟨"fragcoord", .fragment, false, .vector 4 .f32⟩
  | .fragDepth => ⟨"fragdepth", .fragment, true, .prim .f32⟩
  | .frontFacing => ⟨"front_facing", .fragment, false, .prim .bool⟩
  | .position => ⟨"position", .vertex, true, .vector 4 .f32⟩
  | .vertexIndex => ⟨"vertex_index", .vertex, false, .prim .i32⟩
  | .instanceIndex => ⟨"instance_index", .vertex, false, .prim .i32⟩
  | .globalInvocation => ⟨"global_invocation_indices", .compute, false, .vector 3 .u32⟩
  | .localInvocation => ⟨"local_invocation_indices", .compute, false, .vector 3 .u32⟩
  | .localIndex => ⟨"local_invocation_index", .compute, false, .prim .u32⟩
  | .workgroup => ⟨"workgroup_indices", .compute, false, .vector 3 .u32⟩
  | .workgroupCount => ⟨"workgroup_count", .compute, false, .vector 3 .u32⟩
  | .reserved .. => ⟨[], .vertex, false, .unknown⟩

def text : Builtin → Text
  | .reserved c => "BuiltinEntry(" ++ Text.ofNat c.code.toNat ++ ")"
  | b => b.info.name

def ofName? (name : Text) : Option Builtin := named.find? fun b => b.info.name == name

end Builtin

end Shading
