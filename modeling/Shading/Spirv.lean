import Shading.Spirv.Buffer
import Shading.Spirv.Entry
import Shading.Spirv.Statement

/-! Binary modules for the entry points of a checked module. -/
namespace Shading.Spirv

/-- Names the file that a module was read from, and the version of its language. -/
def sourceInfo (m : Module) : Build Unit := do
  let files := (m.root.map (·.span.file)).toList ++ (m.root.elim [] (·.body)).map (·.span.file)
  let file ← match files.find? (!·.isEmpty) with
    | some name => Builder.string name
    | none => pure 0
  let version := (m.metadata.map (·.version)).getD 0
  Builder.source SourceLanguage.unknown (if version = 0 then 100 else version) file

/-- What a module starts with; the result is the number of the set of extended instructions. -/
def preamble (settings : Settings) (m : Module) : Build UInt32 := do
  Builder.capability Capability.shader
  settings.capabilities.forM Builder.capability
  let extended ← Builder.extInstImport "GLSL.std.450"
  Builder.setMemoryModel AddressingModel.logical MemoryModel.glsl450
  if settings.debug then sourceInfo m
  return extended

/-- Gives numbers to functions. -/
def numbered : List FunctionDecl → Build (List Function)
  | [] => return []
  | decl :: decls => do
    let id ← Builder.fresh
    return ⟨decl, id⟩ :: (← numbered decls)

def stageOf (f : Function) : Stage := f.decl.head.stage.value.getD .vertex

/-- The entry points of the wanted stages. Each stage that is asked for must have one. -/
def entryPoints (stages : List Stage) (fs : List Function) : Except BackendError (List Function) := do
  let wanted := (stages.map StageSet.single).foldl StageSet.union .empty
  let wanted := if wanted = .empty then .all else wanted
  let entries := fs.filter fun f => f.decl.own && f.decl.head.isEntry && wanted.has (stageOf f)
  let found := (entries.map fun f => StageSet.single (stageOf f)).foldl StageSet.union .empty
  match stages.find? fun s => !found.has s with
  | some s => throw (.located {} (.noEntryFor s))
  | none => if entries.isEmpty then throw (.located {} .noEntry) else return entries

/-- Adds a function and those that it calls to the ones that are reached already. No chain of calls to
new functions is longer than there are functions. -/
def reach (fs : List Function) : Nat → Function → List UInt32 → List UInt32
  | 0, _, seen => seen
  | depth + 1, f, seen =>
    if seen.contains f.id then seen
    else (f.decl.callees.filterMap (function? fs)).foldl (fun seen g => reach fs depth g seen) (f.id :: seen)

/-- The functions that run when an entry point does. -/
def reached (fs : List Function) (entry : Function) : List UInt32 := reach fs (fs.length + 1) entry []

/-- The stages that a function runs in. -/
def stagesOf (entries : List (Stage × List UInt32)) (f : Function) : StageSet :=
  ((entries.filter fun e => e.2.contains f.id).map fun e => StageSet.single e.1).foldl
    StageSet.union .empty

/-- The layout that a structure is declared with, if it is declared with one. -/
def layoutOf (source : Specialization) (r : Record Ty) (fallback : Layout) : Layout :=
  ((source.struct? r.id).bind (·.layout.value)).getD fallback

/-- The storage that a resource of a type is in, and what says where the parts of the resource are. -/
def resource? (settings : Settings) (source : Specialization) : Ty → Option (UInt32 × Buffering Unit)
  | .uniform r =>
    some (StorageClass.uniform, Buffers.declareBlock Decoration.block (layoutOf source r .std140) r)
  | .storage r =>
    let modern := settings.version.atLeast .v1_3
    some (if modern then StorageClass.storageBuffer else StorageClass.uniform,
      Buffers.declareBlock (if modern then Decoration.block else Decoration.bufferBlock)
        (layoutOf source r .std430) r)
  | .sampler .. => some (StorageClass.uniformConstant, pure ())
  | _ => none

/-- Declares the variable for a resource. -/
def declareResource (settings : Settings) (v : External) (storage : UInt32) : Buffering UInt32 := do
  let pointer ← Buffers.pooled (Pool.pointerTo storage v.type.denoted)
  Buffers.pooled (Pool.build do
    let id ← Builder.global pointer storage
    Builder.decorate id Decoration.descriptorSet [v.set.value.getD 0]
    Builder.decorate id Decoration.binding [v.binding.value.getD 0]
    if settings.debug then Builder.name id v.name
    return id)

/-- A resource as a variable outside functions. -/
def global (settings : Settings) (source : Specialization) (v : External) :
    StateT Buffers (Except BackendError) (Int × Place) := fun s => do
  match resource? settings source v.type.denoted with
  | none => throw (.located v.span (.externalType v.name v.type.denoted))
  | some (storage, block) =>
    let declare : Buffering UInt32 := do
      block
      declareResource settings v storage
    let (id, s) ← (declare s).mapError fun e => .located v.span (.inExternal v.name e)
    return ((v.id, ⟨id, storage, v.type.denoted⟩), s)

/-- Runs code that generates a function, and gives back the module with it. -/
def run (c : Context) (pool : Pool) (draft : Draft) (code : Code Unit) : Except BackendError Pool := do
  let (_, s) ← code c { pool, draft }
  return s.pool

/-- Takes over a form of a part of a function. -/
def formed {α : Type} (span : Span) (obstacle : FormError → Obstacle) (step : Pooling α) :
    StateT Pool (Except BackendError) α := fun p =>
  (step p).mapError fun e => .located span (obstacle e)

/-- The parameters of a function are put into variables, so that they can be assigned to. -/
def parameters : List (FnParam × UInt32) → Code Unit
  | [] => return
  | (p, type) :: params => do
    let value ← Code.drafted (Draft.parameter type)
    let pointer ← Code.pooled p.span .form (Pool.pointerType StorageClass.function type)
    let id ← Code.drafted (Draft.declare pointer)
    Code.drafted (Draft.store id value)
    modify fun s => { s with locals := (p.id, ⟨id, StorageClass.function, p.type.denoted⟩) :: s.locals }
    Code.giveName id p.name
    parameters params

/-- What is written into a function whose parameters have the given types. -/
def body (f : Function) (types : List UInt32) : Code Unit := do
  let head := f.decl.head
  Code.giveName f.id head.name
  parameters (head.params.zip types)
  Code.statements f.decl.body
  Code.close (if head.result.denoted.isVoid then Draft.leave else Draft.unreachable)
  let _ ← Code.finish

/-- The code of a function. -/
def function (c : Context) (f : Function) : StateT Pool (Except BackendError) Unit := do
  let head := f.decl.head
  let resultType ← formed f.decl.span (.inFunction head.name) (Pool.typeId head.result.denoted)
  let types ← head.params.mapM fun p => formed p.span (.inParameter p.name) (Pool.typeId p.type.denoted)
  let type ← formed f.decl.span .form (Pool.functionType resultType types)
  let draft ← formed f.decl.span .form (Pool.build (Draft.start f.id resultType type))
  let pool ← liftM <| run c (← get) draft (body f types)
  set pool

/-- The function that the pipeline calls for an entry point. -/
def entry (c : Context) (f : Function) : StateT Pool (Except BackendError) Unit := do
  let here {α : Type} (step : Pooling α) : StateT Pool (Except BackendError) α := fun p =>
    (step p).mapError .unlocated
  let void ← here Pool.voidId
  let id ← here (Pool.build Builder.fresh)
  let type ← here (Pool.functionType void [])
  let draft ← here (Pool.build (Draft.start id void type))
  let pool ← liftM <| run c (← get) draft (Code.wrapper f)
  set pool

/-- How a module is checked before code is generated for it. -/
def Settings.lowerings (settings : Settings) : CheckSettings :=
  { splitBranches := true, reduceLoops := true, removeMatrixCasts := true, values := settings.values }

/-- Puts together the module for the entry points of a checked module. -/
def assemble (m : Option Module) (settings : Settings) : Except BackendError Pool := do
  let v := settings.version
  if !v.isSupported then throw (.located {} (.spirvVersion v.major v.minor))
  let source ← Specialization.ofModule m settings.lowerings
  let (extended, b) := preamble settings source.result { version := v }
  let (functions, b) := numbered source.functions b
  let entries ← entryPoints settings.stages functions
  let running := entries.map fun e => (stageOf e, reached functions e)
  let (globals, s) ← (source.externals.mapM (global settings source)).run
    { pool := { builder := b, debug := settings.debug } }
  let context (f : Function) : Context :=
    { settings, source, functions, extended, name := f.decl.head.name, stages := stagesOf running f,
      globals }
  let emitted := functions.filter fun f => stagesOf running f ≠ .empty
  let code : StateT Pool (Except BackendError) Unit := do
    emitted.forM fun f => function (context f) f
    entries.forM fun f => entry (context f) f
  let (_, pool) ← code s.pool
  return pool

/-- The words of the binary module for the entry points of a checked module. -/
def generate (m : Option Module) (settings : Settings) : Except BackendError (List UInt32) := do
  return (← assemble m settings).builder.words

end Shading.Spirv
