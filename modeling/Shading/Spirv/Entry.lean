import Shading.Spirv.Code

/-! The functions that the pipeline calls. -/
namespace Shading.Spirv.Code

/-- Adds to the module where nothing can be pointed at. -/
def unplaced {α : Type} (step : Pooling α) : Code α := do
  match step (← get).pool with
  | .ok (a, pool) =>
    modify fun s => { s with pool }
    return a
  | .error e => throw (.unlocated e)

/-- The number of a builtin. -/
def builtInNumber? : Builtin → Option UInt32
  | .fragCoord => some BuiltIn.fragCoord
  | .fragDepth => some BuiltIn.fragDepth
  | .frontFacing => some BuiltIn.frontFacing
  | .position => some BuiltIn.position
  | .vertexIndex => some BuiltIn.vertexIndex
  | .instanceIndex => some BuiltIn.instanceIndex
  | .globalInvocation => some BuiltIn.globalInvocationId
  | .localInvocation => some BuiltIn.localInvocationId
  | .localIndex => some BuiltIn.localInvocationIndex
  | .workgroup => some BuiltIn.workgroupId
  | .workgroupCount => some BuiltIn.numWorkgroups
  | .reserved .. => none

/-- The declaration of a member. -/
def declared? (r : Record Ty) (i : Nat) : Code (Option StructMember) := do
  return ((← read).source.struct? r.id).bind (·.members[i]?)

/-- The variable through which a member is taken or given. Integers are not interpolated. -/
def interfaceVariable (r : Record Ty) (i : Nat) (name : Text) (t : Ty) (storage : UInt32)
    (stage : Stage) : Code UInt32 := do
  match ← declared? r i with
  | none => fail {} (.unknownStruct r.name)
  | some m =>
    let pointer ← pooled m.span (.inMember name) (Pool.pointerTo storage t)
    let id ← built (Builder.global pointer storage)
    match m.builtin.value, m.location.value with
    | some b, _ =>
      match builtInNumber? b with
      | some n => built (Builder.decorate id Decoration.builtIn [n])
      | none => fail m.span (.builtin b)
    | none, some location =>
      built (Builder.decorate id Decoration.location [location])
      if storage == StorageClass.input && stage == .fragment && t.scalar?.any (·.isInteger) then
        built (Builder.decorate id Decoration.flat [])
    | none, none => fail m.span (.unplacedMember name)
    giveName id (r.name ++ "_" ++ name)
    return id

/-- Takes the members of the parameter. -/
def takeMembers (r : Record Ty) (stage : Stage) :
    List ((Text × Ty) × Nat) → Code (List UInt32 × List UInt32)
  | [] => return ([], [])
  | ((name, t), i) :: members => do
    let id ← interfaceVariable r i name t StorageClass.input stage
    let type ← unplaced (Pool.typeId t)
    let value ← drafted (Draft.load type id)
    let (ids, values) ← takeMembers r stage members
    return (id :: ids, value :: values)

/-- Gives the members of the result. -/
def giveMembers (r : Record Ty) (stage : Stage) (result : UInt32) :
    List ((Text × Ty) × Nat) → Code (List UInt32)
  | [] => return []
  | ((name, t), i) :: members => do
    let id ← interfaceVariable r i name t StorageClass.output stage
    let type ← unplaced (Pool.typeId t)
    let value ← drafted (Draft.compositeExtract type result [i.toUInt32])
    drafted (Draft.store id value)
    return id :: (← giveMembers r stage result members)

/-- Is the depth among the members of a structure? -/
def writesDepth (r : Record Ty) : Code Bool := do
  let members := ((← read).source.struct? r.id).elim [] (·.members)
  return (members.take r.members.length).any fun m => m.builtin.value == some .fragDepth

def depthMode? : DepthWrite → Option UInt32
  | .greater => some ExecutionMode.depthGreater
  | .less => some ExecutionMode.depthLess
  | .unchanged => some ExecutionMode.depthUnchanged
  | .replace | .reserved .. => none

/-- Declares the entry point of a stage. -/
def declareEntry (f : FunctionDecl) (id : UInt32) (interfaces : List UInt32) (depth : Bool) :
    Code Unit := do
  let mode (m : UInt32) (args : List UInt32) : Code Unit := built (Builder.executionMode id m args)
  let entry (model : UInt32) : Code Unit := built (Builder.entryPoint model id f.head.name interfaces)
  match f.head.stage.value.getD .vertex with
  | .vertex => entry ExecutionModel.vertex
  | .fragment =>
    entry ExecutionModel.fragment
    mode ExecutionMode.originUpperLeft []
    if f.head.earlyTests.value == some true then mode ExecutionMode.earlyFragmentTests []
    if depth then
      mode ExecutionMode.depthReplacing []
      match f.head.depthWrite.value.bind depthMode? with
      | some m => mode m []
      | none => pure ()
  | .compute =>
    entry ExecutionModel.glCompute
    let (x, y, z) := f.head.workgroup.value.getD (1, 1, 1)
    mode ExecutionMode.localSize [x, y, z]
  | s => fail f.span (.stage s)

/-- The variables that the parameter of an entry point is taken from, and the argument for it. -/
def takeParameter (f : FunctionDecl) (stage : Stage) : Code (List UInt32 × List UInt32) :=
  match f.head.params with
  | [p] =>
    match p.type.denoted with
    | .struct r => do
      let type ← unplaced (Pool.typeId (.struct r))
      let (ids, values) ← takeMembers r stage r.members.zipIdx
      let input ← drafted (Draft.compositeConstruct type values)
      return (ids, [input])
    | _ => fail f.span (.entryInput f.head.name)
  | _ => return ([], [])

/-- The variables that the result of an entry point is given to. Is the depth among them? -/
def giveResult (t : Ty) (stage : Stage) (result : UInt32) : Code (List UInt32 × Bool) :=
  match t with
  | .struct r => do
    let ids ← giveMembers r stage result r.members.zipIdx
    return (ids, ← writesDepth r)
  | _ => return ([], false)

/-- The function that the pipeline calls: it takes the members of the parameter, calls the entry point
and gives the members of the result. -/
def wrapper (f : Function) : Code Unit := do
  let head := f.decl.head
  let stage := head.stage.value.getD .vertex
  let (inputs, args) ← takeParameter f.decl stage
  let type ← unplaced (Pool.typeId head.result.denoted)
  let result ← drafted (Draft.call type f.id args)
  let (outputs, depth) ← giveResult head.result.denoted stage result
  drafted Draft.leave
  let id ← finish
  -- from this version on, an entry point lists all variables outside functions
  let c ← read
  let globals := if c.settings.version.atLeast .v1_4 then c.globals.map (·.2.pointer) else []
  declareEntry f.decl id (inputs ++ outputs ++ globals) depth

end Shading.Spirv.Code
