import Shading.Glsl.Statement

/-! GLSL for an entry point of a checked module. -/
namespace Shading.Glsl

/-- The entry point of the stage, which is declared under no condition. -/
def entryPoint (c : Context) : Except BackendError FunctionDecl :=
  let wanted := fun (f : FunctionDecl) =>
    f.own && f.unconditional && f.head.isEntry && f.head.stage.value.getD .vertex == c.settings.stage &&
      (c.settings.entryPoint.isEmpty || f.head.name == c.settings.entryPoint)
  match c.source.functions.find? wanted with
  | some f => .ok f
  | none =>
    let name := c.settings.entryPoint
    .error (.located {}
      (if name.isEmpty then .noEntryFor c.settings.stage else .noEntryNamed c.settings.stage name))

/-- The functions that a function calls, in the order of the calls. -/
def called (s : Specialization) (f : FunctionDecl) : List FunctionDecl := f.callees.filterMap s.function?

/-- Adds a function and those that it calls to the ones that are reached already, each after those that
it calls. No chain of calls to new functions is longer than there are functions. -/
def reach (s : Specialization) :
    Nat → FunctionDecl → List Int × List FunctionDecl → List Int × List FunctionDecl
  | 0, _, acc => acc
  | depth + 1, f, (visited, order) =>
    if visited.contains f.head.id then (visited, order)
    else
      let (visited, order) := (called s f).foldl (fun acc g => reach s depth g acc) (f.head.id :: visited, order)
      (visited, order ++ [f])

/-- The functions that an entry point reaches, each after those that it calls. -/
def reachable (s : Specialization) (entry : FunctionDecl) : List FunctionDecl :=
  (reach s (s.functions.length + 1) entry ([], [])).2

/-- Gives names to the declarations outside functions. -/
def nameDeclarations (reached : List FunctionDecl) : Glsl Unit := do
  modify fun s => { s with namer := s.namer.reserve "main" }
  let source := (← read).source
  source.structs.forM fun d => do
    let name ← freshName d.name
    modify fun s => { s with structs := (d.id, name) :: s.structs }
  source.named.forM fun (id, n) => do
    let name ← freshName n
    modify fun s => { s with constants := (id, name) :: s.constants }
  source.externals.forM fun v => do
    let name ← freshName v.name
    modify fun s => { s with vars := (v.id, name) :: s.vars }
  reached.forM fun f => do
    let name ← freshName f.head.name
    modify fun s => { s with functions := (f.head.id, name) :: s.functions }

def precisionLines (v : Version) : List Text :=
  if v.es then
    ["precision highp float;", "precision highp int;", "precision highp sampler2D;",
     "precision highp sampler3D;", "precision highp samplerCube;", ""]
  else []

/-- The members of a structure or a block. -/
def memberLines (struct : Text) : List (Text × Ty) → Glsl (List Text)
  | [] => return []
  | (name, t) :: members => do
    let decl ← match ← declaration t (escape name) with
      | .ok decl => pure decl
      | .error e => throw (.unlocated (.inMember struct name e))
    return (decl ++ ";") :: (← memberLines struct members)

def recordOf (d : StructDecl) : Record Ty :=
  ⟨d.id, d.name, d.members.map fun m => (m.name, m.type.denoted)⟩

/-- Structures with a member of unknown length are blocks only. -/
def hasRuntimeArray (r : Record Ty) : Bool :=
  r.members.any fun m => match m.2 with
    | .array _ n => n == 0
    | _ => false

/-- The structures that the members of a structure are made of. -/
def contained (s : Specialization) (d : StructDecl) : List StructDecl :=
  d.members.filterMap fun m => match m.type.denoted.innermost with
    | .struct r => s.struct? r.id
    | _ => none

/-- The definition of a structure. -/
def structBlock (d : StructDecl) : Glsl (List Text) := do
  let r := recordOf d
  let name := ((← get).structs.lookup d.id).getD []
  let members ← memberLines r.name r.members
  return block ("struct " ++ name ++ " ") members [closing ++ ";", []]

/-- The definitions of a structure and of those that it contains, which come first. No chain of new
structures inside each other is longer than there are structures. -/
def structLines : Nat → StructDecl → List Int → Glsl (List Text × List Int)
  | 0, _, written => return ([], written)
  | depth + 1, d, written => do
    if written.contains d.id then return ([], written)
    let (before, written) ← (contained (← read).source d).foldlM (fun (lines, written) c => do
      let (more, written) ← structLines depth c written
      return (lines ++ more, written)) ([], d.id :: written)
    if hasRuntimeArray (recordOf d) then return (before, written)
    return (before ++ (← structBlock d), written)

def allStructLines : Glsl (List Text) := do
  let structs := (← read).source.structs
  let (lines, _) ← structs.foldlM (fun (lines, written) d => do
    let (more, written) ← structLines (structs.length + 1) d written
    return (lines ++ more, written)) ([], [])
  return lines

def constantsLines : Glsl (List Text) := do
  let source := (← read).source
  let lines ← source.named.mapM fun (id, n) => do
    match source.constants.get? id with
    | none => fail {} (.constantWithoutValue n)
    | some v => constantLine (((← get).constants.lookup id).getD []) v
  return if lines.isEmpty then [] else lines ++ [Text.ofString ""]

/-- The resources that the functions read, in the order of their sets and bindings. -/
def usedExternals (s : Specialization) (reached : List FunctionDecl) : List External :=
  let used := reached.flatMap fun f => f.nodes.filterMap fun n => match n with
    | .expr (.var _ id) => some id
    | _ => none
  let key := fun (v : External) => (v.set.value.getD 0, v.binding.value.getD 0)
  (s.externals.filter fun v => used.contains v.id).mergeSort fun a b =>
    (key a).1 < (key b).1 || ((key a).1 == (key b).1 && (key a).2 ≤ (key b).2)

def layoutText (c : Context) (v : External) (args : List Text) : Text :=
  let point := c.settings.bindingPoint (v.set.value.getD 0) (v.binding.value.getD 0)
  let args := if c.version.supportsExplicitBinding
    then args ++ [Text.ofString "binding = " ++ Text.ofNat point.toNat] else args
  if args.isEmpty then [] else "layout(" ++ Text.join ", " args ++ ") "

def blockLines (start name : Text) (r : Record Ty) : Glsl (List Text) := do
  let members ← memberLines r.name r.members
  return block (start ++ " _nzslBinding_" ++ name ++ " ") members [closing ++ " " ++ name ++ ";"]

/-- The block or the sampler of a resource. -/
def externalLines (v : External) : Glsl (List Text) := do
  let c ← read
  let name := ((← get).vars.lookup v.id).getD []
  match v.type.denoted with
  | .uniform r => blockLines (layoutText c v ["std140"] ++ "uniform") name r
  | .storage r =>
    if !c.version.supportsStorageBuffers then fail v.span (.storageVersion v.name c.version.text)
    let declared := (c.source.struct? r.id).bind (·.layout.value)
    let layout : Text := if declared == some .std140 then "std140" else "std430"
    blockLines (layoutText c v [layout] ++ "buffer") name r
  | .sampler dim p _ =>
    return [layoutText c v [] ++ "uniform " ++ samplerName dim p ++ " " ++ name ++ ";"]
  | t => fail v.span (.externalType v.name t)

def externalsLines (reached : List FunctionDecl) : Glsl (List Text) := do
  let externals := usedExternals (← read).source reached
  let lines ← externals.mapM externalLines
  return if externals.isEmpty then [] else lines.flatten ++ [Text.ofString ""]

/-- The structure of a parameter or a result. -/
def interfaceStruct (f : FunctionDecl) (r : Record Ty) : Glsl StructDecl := do
  match (← read).source.struct? r.id with
  | some d => return d
  | none => fail f.span (.unknownStruct r.name)

/-- The structures that an entry point takes and gives. -/
def entryStructs (f : FunctionDecl) : Glsl (Option StructDecl × Option StructDecl) := do
  let input ← match f.head.params with
    | [p] =>
      match p.type.denoted with
      | .struct r => some <$> interfaceStruct f r
      | _ => fail f.span (.entryInput f.head.name)
    | _ => pure none
  let output ← match f.head.result.denoted with
    | .struct r => some <$> interfaceStruct f r
    | _ => pure none
  return (input, output)

/-- Does a direction of a stage lead to or from another stage? -/
def isVarying (stage : Stage) (output : Bool) : Bool :=
  (stage == .vertex && output) || (stage == .fragment && !output)

/-- The variable of a member with a location. Between stages it is named by the location, so that the
stages fit together. -/
def interfaceName (stage : Stage) (output : Bool) (m : StructMember) : Text :=
  if isVarying stage output then "_nzslVarying" ++ Text.ofNat (m.location.value.getD 0).toNat
  else if output then "_nzslOut_" ++ m.name
  else "_nzslIn_" ++ m.name

def interfaceLine (output : Bool) (m : StructMember) (location : UInt32) : Glsl Text := do
  let c ← read
  let t := m.type.denoted
  let decl ← formed m.span (.inMember m.name) (← declaration t (interfaceName c.settings.stage output m))
  let direction : Text := if output then "out" else "in"
  let located := "layout(location = " ++ Text.ofNat location.toNat ++ ") "
  if isVarying c.settings.stage output then
    let qualifier := if t.scalar?.any (·.isInteger) then "flat " ++ direction else direction
    return (if c.version.supportsVaryingLocations then located else []) ++ qualifier ++ " " ++ decl ++ ";"
  return located ++ direction ++ " " ++ decl ++ ";"

def interfaceLines (output : Bool) (d : Option StructDecl) : Glsl (List Text) :=
  let located := (d.elim [] (·.members)).filterMap fun m => m.location.value.map fun l => (m, l)
  located.mapM fun (m, l) => interfaceLine output m l

def depthLine? : DepthWrite → Option Text
  | .greater => some "layout(depth_greater) out float gl_FragDepth;"
  | .less => some "layout(depth_less) out float gl_FragDepth;"
  | .unchanged => some "layout(depth_unchanged) out float gl_FragDepth;"
  | _ => none

/-- What a stage says about itself. -/
def stageLines (f : FunctionDecl) : Glsl (List Text) := do
  let c ← read
  match c.settings.stage with
  | .compute =>
    if !c.version.supportsCompute then fail f.span (.computeVersion c.version.text)
    let (x, y, z) := f.head.workgroup.value.getD (1, 1, 1)
    return ["layout(local_size_x = " ++ Text.ofNat x.toNat ++ ", local_size_y = " ++ Text.ofNat y.toNat ++
      ", local_size_z = " ++ Text.ofNat z.toNat ++ ") in;", ""]
  | .fragment =>
    if !c.version.supportsFragmentLayouts then return []
    let early : List Text :=
      if f.head.earlyTests.value == some true then ["layout(early_fragment_tests) in;"] else []
    return early ++ (f.head.depthWrite.value.bind depthLine?).toList
  | _ => return []

/-- The variables through which the entry point takes and gives values. -/
def interface (f : FunctionDecl) : Glsl (List Text) := do
  let stage ← stageLines f
  let (input, output) ← entryStructs f
  let inputs ← interfaceLines false input
  let outputs ← interfaceLines true output
  let stageVars := inputs ++ outputs
  return stage ++ if stageVars.isEmpty then [] else stageVars ++ [Text.ofString ""]

def parameterTexts : List FnParam → Glsl (List Text)
  | [] => return []
  | p :: ps => do
    let name ← freshName p.name
    modify fun s => { s with vars := (p.id, name) :: s.vars }
    let decl ← formed p.span (.inParameter p.name) (← declaration p.type.denoted name)
    return decl :: (← parameterTexts ps)

def functionLines (f : FunctionDecl) : Glsl (List Text) := do
  let result ← formed f.span (.inFunction f.head.name) (← typeName f.head.result.denoted)
  let params ← parameterTexts f.head.params
  let name := ((← get).functions.lookup f.head.id).getD []
  let body ← statements f.body
  return block (result ++ " " ++ name ++ "(" ++ Text.join ", " params ++ ") ") body [closing, []]

/-- The variable of the language for a builtin. -/
def builtinVariable? : Builtin → Option Text
  | .fragCoord => some "gl_FragCoord"
  | .fragDepth => some "gl_FragDepth"
  | .frontFacing => some "gl_FrontFacing"
  | .position => some "gl_Position"
  | .vertexIndex => some "gl_VertexID"
  | .instanceIndex => some "gl_InstanceID"
  | .globalInvocation => some "gl_GlobalInvocationID"
  | .localInvocation => some "gl_LocalInvocationID"
  | .localIndex => some "gl_LocalInvocationIndex"
  | .workgroup => some "gl_WorkGroupID"
  | .workgroupCount => some "gl_NumWorkGroups"
  | .reserved .. => none

/-- The name of a member and the variable that it is taken from or given to. -/
def memberVariable (output : Bool) (m : StructMember) : Glsl (Text × Text) := do
  match m.builtin.value, m.location.value with
  | some b, _ =>
    match builtinVariable? b with
    | some v => return (escape m.name, v)
    | none => fail m.span (.builtin b)
  | none, some _ => return (escape m.name, interfaceName (← read).settings.stage output m)
  | none, none => fail m.span (.unplacedMember m.name)

def writesPosition (d : StructDecl) : Bool :=
  d.members.any fun m => m.builtin.value == some .position

/-- Adapts the position of a vertex to the conventions of the target. -/
def positionLines (s : Settings) (d : StructDecl) : List Text :=
  if s.stage == .vertex && writesPosition d then
    (if s.flipY then [Text.ofString "gl_Position.y = -gl_Position.y;"] else []) ++
      if s.remapZ then [Text.ofString "gl_Position.z = gl_Position.z * 2.0 - gl_Position.w;"] else []
  else []

/-- The function that the pipeline calls: it fills the parameter, calls the entry point and gives away
the members of the result. -/
def mainLines (f : FunctionDecl) : Glsl (List Text) := do
  let (input, output) ← entryStructs f
  let (arg, inputs) ← match input with
    | none => pure ([], [])
    | some d => do
      let members ← d.members.mapM (memberVariable false)
      let arg ← uniqueName "_nzslInput"
      let type := ((← get).structs.lookup d.id).getD []
      pure (arg, (type ++ " " ++ arg ++ ";") ::
        members.map fun (m, v) => arg ++ "." ++ m ++ " = " ++ v ++ ";")
  let call := ((← get).functions.lookup f.head.id).getD [] ++ "(" ++ arg ++ ")"
  let outputs ← match output with
    | none => pure [call ++ ";"]
    | some d => do
      let members ← d.members.mapM (memberVariable true)
      let result ← uniqueName "_nzslOutput"
      let type := ((← get).structs.lookup d.id).getD []
      pure ((type ++ " " ++ result ++ " = " ++ call ++ ";") ::
        (members.map fun (m, v) => v ++ " = " ++ result ++ "." ++ m ++ ";") ++
        positionLines (← read).settings d)
  return block "void main() " (inputs ++ outputs) [closing]

def shaderLines (f : FunctionDecl) : Glsl (List Text) := do
  let c ← read
  let reached := reachable c.source f
  nameDeclarations reached
  let structs ← allStructLines
  let constants ← constantsLines
  let externals ← externalsLines reached
  let stageVars ← interface f
  let functions ← reached.mapM functionLines
  let main ← mainLines f
  if (← get).usesDouble && !c.version.supportsDouble then fail {} (.doubleVersion c.version.text)
  return [Text.ofString "#version " ++ c.version.text, []] ++ precisionLines c.version ++ structs ++
    constants ++ externals ++ stageVars ++ functions.flatten ++ main

/-- The GLSL source for an entry point of a checked module. -/
def generate (m : Option Module) (settings : Settings) : Except BackendError Text := do
  let source ← Specialization.ofModule m { reduceLoops := true, values := settings.values }
  let c : Context := ⟨settings, source⟩
  let entry ← entryPoint c
  let (lines, _) ← shaderLines entry c {}
  return lines.flatMap (· ++ [Text.byte '\n'])

end Shading.Glsl
