import Shading.Check.Attributes
import Shading.Check.Session

/-! Checking what entry points take and give. -/
namespace Shading.Check

def directionText (output : Bool) : Text := if output then "output" else "input"

/-- A member that has a location: it is used once and holds a scalar, a vector or a matrix. -/
def checkLocation (stage : Stage) (output : Bool) (m : StructMember) (location : UInt32)
    (taken : List (UInt32 × Text)) : Check (List (UInt32 × Text)) := do
  if stage == .compute then reject m.span (.computeLocation m.name)
  if let some other := taken.lookup location then
    reject m.span (.sharedLocation location m.name other)
  match m.type with
  | .typeRef _ t =>
    if t.scalar?.isNone then reject m.span (.locationType (directionText output) m.name t)
  | _ => pure ()
  return (location, m.name) :: taken

/-- Every member is a builtin of the stage or has a location of its own. -/
def checkMembers (struct : Text) (stage : Stage) (output : Bool) :
    List StructMember → List (UInt32 × Text) → Check Unit
  | [], _ => return
  | m :: ms, taken => do
    match m.builtin.value, m.location.value with
    | some b, _ =>
      if b.info.stage != stage then reject m.span (.builtinStage b.info.name stage)
      if b.info.output != output then
        reject m.span (.builtinDirection b.info.name stage (directionText output))
      checkMembers struct stage output ms taken
    | none, some l =>
      let taken ← checkLocation stage output m l taken
      checkMembers struct stage output ms taken
    | none, none => reject m.span (.unplacedMember m.name (directionText output) struct)

def checkInterface (r : Record Ty) (stage : Stage) (output : Bool) (span : Span) : Check Unit := do
  match (← getSession).structs.lookup r.id with
  | none => reject span (.unknownStruct r.name)
  | some s => checkMembers r.name stage output s.members []

/-- Checks the parameter and the result of an entry point. -/
def checkEntryPoint (span : Span) (h : FnHead) (f : Function) : Check Unit := do
  let stage := h.stage.value.getD .vertex
  match h.params, f.params with
  | [], _ => pure ()
  | [p], t :: _ =>
    match t with
    | .unknown => pure ()
    | .struct r => checkInterface r stage false p.span
    | _ => reject p.span (.entryParameterType h.name t)
  | _, _ => reject span (.entryParameterCount h.name)
  match f.result with
  | .void | .unknown => return
  | .struct r =>
    if stage == .compute then reject span (.computeResult h.name)
    checkInterface r stage true span
  | t => reject span (.entryResultType h.name t)

-- Checking declarations other than imports and the bodies of functions.

/-- Some declarations stand outside functions only. -/
def requireModuleScope (span : Span) (what : Text) : Check Unit := do
  if (← read).function.isSome then reject span (.notAtModuleScope what)

/-- Options are scalars and vectors. -/
def checkOptionType (span : Span) (name : Text) (t : Ty) : Check Unit :=
  match t with
  | .prim _ | .vector .. | .unknown => return
  | _ => reject span (.optionType name t)

/-- The default of an option with its place, if it has one. -/
def optionDefault (d : OptionDecl) (t : Ty) : Check (Option (Span × Value)) := do
  if d.default.isAbsent then return none
  let e ← expression d.default
  match ← evaluateWithDefaults e with
  | .error err => reject e.span (.optionNotConstant d.name err)
  | .ok v =>
    if t.isKnown && !v.type.same t then reject e.span (.optionDefaultType d.name v.type t)
    return some (e.span, v)

/-- The value that is given for an option, if there is one. -/
def optionValue (span : Span) (name : Text) (t : Ty) : Check (Option Value) := do
  match (← read).settings.values.get? name with
  | none => return none
  | some v =>
    if t.isKnown && !v.type.same t then reject span (.optionValueType name v.type t)
    return some v

def declareOption (span : Span) (d : OptionDecl) : Check OptionDecl := do
  requireModuleScope span "options"
  let (t, type) ← annotation d.type
  checkOptionType span d.name t
  let fallback ← optionDefault d t
  let value ← optionValue span d.name t
  let id ← constantId d.id
  addConstant id { name := d.name, type := t, value, fallback := fallback.map (·.2) }
  declare d.name span (.constant id)
  return { d with type, default := fallback.elim d.default fun f => .ofValue f.1 f.2, id }

/-- What is known of a constant with a checked value, and the value as far as it is known. -/
def constantInfo (name : Text) (declared : Ty) (e : Expr) : Check (Constant × Expr) := do
  if !e.type.isKnown then return ({ name, type := declared }, e)
  if declared.isKnown && !declared.same e.type then reject e.span (.constantType name declared e.type)
  match ← evaluateWithDefaults e with
  | .error _ => reject e.span (.constantNotConstant name)
  | .ok fallback =>
    let value := (← evaluate e).toOption
    return ({ name, type := e.type, value, fallback := some fallback }, value.elim e (.ofValue e.span))

def declareConst (span : Span) (d : ConstDecl) : Check ConstDecl := do
  let (declared, type) ← if d.type.isAbsent then pure (.unknown, d.type) else annotation d.type
  let e ← expression d.value
  let exported ← boolAttr d.exported
  let (info, value) ← constantInfo d.name declared e
  let id ← constantId d.id
  addConstant id info
  publish d.name exported (.constant id) span
  declare d.name span (.constant id)
  return { d with type, value, exported, id }

/-- What an alias may stand for. -/
def aliasTarget (e : Expr) : Check Expr := do
  match ← typeOf? e with
  | some (.struct r) => return .structRef ⟨e.span, .struct r⟩ r.id
  | some t => return .ofType e.span t
  | none =>
    match ← expression e with
    | .function i id => return .function i id
    | .structRef i id => return .structRef i id
    | .typeRef i t => return .typeRef i t
    | .intrinsicRef i f => return .intrinsicRef i f
    | .name i n => return .name i n
    | _ => reject e.span .aliasTarget

def declareAlias (span : Span) (d : AliasDecl) : Check AliasDecl := do
  let target ← aliasTarget d.target
  let exported ← boolAttr d.exported
  let id ← aliasId d.id
  publish d.name exported (.alias id target) span
  declare d.name span (.alias id target)
  return { d with target, exported, id }

/-- The layout of a structure cannot wait for options, so that their defaults apply. -/
def memberExists (m : StructMember) : Check Bool := do
  if m.cond.isAbsent then return true
  let cond ← expression m.cond
  match ← evaluateWithDefaults cond with
  | .error _ => reject cond.span (.memberConditionNotConstant m.name)
  | .ok (.bool b) => return b
  | .ok v => reject cond.span (.memberConditionType m.name v.type)

def memberAttributes (m : StructMember) (t : Ty) : Check StructMember := do
  let builtin ← builtinAttr m.builtin
  if let some b := builtin.value then
    if t.isKnown && !b.info.type.same t then reject m.span (.builtinType b b.info.type t)
  let location ← unsignedAttr m.location "location"
  if builtin.value.isSome && location.value.isSome then reject m.span (.builtinAndLocation m.name)
  return { m with builtin, location }

/-- The members of a structure that exist, with their types. -/
def structMembers (struct : Text) (seen : List Text) :
    List StructMember → Check (List (StructMember × Ty))
  | [] => return []
  | m :: ms => do
    if !(← memberExists m) then structMembers struct seen ms
    else do
      if seen.contains m.name then reject m.span (.duplicateMember m.name struct)
      let (t, type) ← annotation m.type
      let m ← memberAttributes { m with cond := .absent, type } t
      return (m, t) :: (← structMembers struct (m.name :: seen) ms)

def declareStruct (span : Span) (d : StructDecl) : Check StructDecl := do
  requireModuleScope span "structs"
  let layout ← layoutAttr d.layout
  let exported ← boolAttr d.exported
  let members ← structMembers d.name [] d.members
  let id ← structId d.id
  let record : Record Ty := ⟨id, d.name, members.map fun m => (m.1.name, m.2)⟩
  modifySession fun s => { s with structs := (id, ⟨members.map (·.1), record⟩) :: s.structs }
  publish d.name exported (.struct id) span
  declare d.name span (.struct id)
  return { d with layout, members := members.map (·.1), exported, id }

/-- Takes a binding of a set. Only resources that are there under conditions may share one. -/
def takeBinding (v : External) (set binding : UInt32) : Check Unit := do
  if let some other := (← getDraft).bindings.lookup (set, binding) then
    if !(← read).conditional then reject v.span (.sharedBinding v.name set binding other)
  modifyDraft fun d => { d with bindings := ((set, binding), v.name) :: d.bindings }

def checkResourceType (v : External) (t : Ty) : Check Unit :=
  match t with
  | .uniform _ | .storage _ | .sampler .. | .unknown => return
  | _ => reject v.span (.externalType v.name t)

/-- A resource has a set and a binding of its own. -/
def declareResource (set : Attr UInt32) (v : External) : Check External := do
  let (t, type) ← annotation v.type
  checkResourceType v t
  let ownSet ← unsignedAttr v.set "set"
  let s := ownSet.value.getD (set.value.getD 0)
  let binding ← unsignedAttr v.binding "binding"
  match binding.value with
  | none => reject v.span (.missingBinding v.name)
  | some b =>
    takeBinding v s b
    let id ← variableId v.id
    addVariable id { name := v.name, type := t, external := true }
    declare v.name v.span (.external id)
    return { v with type, set := .known s, binding, id }

def declareResources (set : Attr UInt32) : List External → Check (List External)
  | [] => return []
  | v :: vs => do
    let v ← declareResource set v
    return v :: (← declareResources set vs)

def declareExternals (span : Span) (set : Attr UInt32) (vars : List External) :
    Check (Attr UInt32 × List External) := do
  requireModuleScope span "externals"
  let set ← unsignedAttr set "set"
  return (set, ← declareResources set vars)

/-- May a variable hold values of the type? -/
def isStorable : Ty → Bool
  | .func .. | .intrinsic _ | .sampler .. | .uniform _ | .storage _ => false
  | _ => true

def declareVariable (span : Span) (d : VarDecl) : Check VarDecl := do
  let (declared, type) ← if d.type.isAbsent then pure (.unknown, d.type) else annotation d.type
  let init ← if d.init.isAbsent then pure d.init else expression d.init
  if init.type.isKnown then
    if init.type.isVoid then reject init.span (.variableWithoutValue d.name)
    if declared.isKnown && !declared.same init.type then
      reject init.span (.variableInit d.name declared init.type)
  let t := if declared.isKnown then declared else init.type
  if !isStorable t then reject span (.variableType d.name t)
  let id ← variableId d.id
  addVariable id { name := d.name, type := t }
  declare d.name span (.variable id)
  return { d with type, init, id }

def annotateParams : List FnParam → Check (List (FnParam × Ty))
  | [] => return []
  | p :: ps => do
    let (t, type) ← annotation p.type
    return ({ p with type }, t) :: (← annotateParams ps)

/-- Checks and declares the head of a function. -/
def declareFunction (span : Span) (h : FnHead) : Check (FnHead × Function) := do
  requireModuleScope span "functions"
  let head ← functionAttributes span h
  let params ← annotateParams h.params
  let (resultType, result) ← if h.result.isAbsent then pure (.void, h.result) else annotation h.result
  let id ← functionId h.id
  let f : Function :=
    { id, name := h.name, isEntry := head.isEntry, params := params.map (·.2), result := resultType }
  modifySession fun s => { s with functions := (id, f) :: s.functions }
  publish h.name head.exported (.function id) span
  declare h.name span (.function id)
  return ({ head with params := params.map (·.1), result, id }, f)

/-- Declares a variable in the innermost scope, which may not hold it yet. -/
def declareLocal (name : Text) (id : Int) (t : Ty) : Check Bool := do
  addVariable id { name, type := t }
  match (← getDraft).scopes.declare? name (.variable id) with
  | some scopes =>
    modifyDraft fun d => { d with scopes }
    return true
  | none => return false

def declareParams : List FnParam → List Ty → Check (List FnParam)
  | p :: ps, t :: ts => do
    let id ← variableId p.id
    if !(← declareLocal p.name id t) then reject p.span (.duplicateParameter p.name)
    return { p with id } :: (← declareParams ps ts)
  | _, _ => return []

end Shading.Check
