import Shading.Check.Rejection
import Shading.Failure

/-! What is known while modules are checked. -/
namespace Shading

/-- A source of modules by name. Those that it has are among finitely many names. -/
structure Resolver where
  names : List Text
  find : Text → Except Failure (Option Module)

/-- How modules are checked. -/
structure CheckSettings where
  resolver : Option Resolver := none
  /-- symbols of modules that cannot be found are left as names without a type -/
  lenient : Bool := false
  /-- a chain of branches becomes branches inside each other with one condition each -/
  splitBranches : Bool := false
  /-- loops over ranges and arrays become loops with a condition -/
  reduceLoops : Bool := false
  /-- conversions between matrix types become constructions from columns -/
  removeMatrixCasts : Bool := false
  values : OptionValues := {}

namespace Check

structure Variable where
  name : Text
  type : Ty
  external : Bool := false

/-- A constant or an option. The value of an option that is not given is unknown, and so is that of
every constant that depends on it; the fallback is what they are with every default. -/
structure Constant where
  name : Text
  type : Ty
  value : Option Value := none
  fallback : Option Value := none

structure Function where
  id : Int
  name : Text
  isEntry : Bool
  params : List Ty
  result : Ty

def Function.type (f : Function) : Ty := .func f.id f.name f.params f.result

structure Structure where
  members : List StructMember
  record : Record Ty

/-- A checked module with the symbols that it exports. -/
structure Exported where
  result : Module
  symbols : List (Text × Binding)

/-- What is shared by all modules that are checked together. Numbers are given out once. -/
structure Session where
  nextVar : Int := 1
  nextConst : Int := 1
  nextFunc : Int := 1
  nextStruct : Int := 1
  nextAlias : Int := 1
  vars : List (Int × Variable) := []
  constants : List (Int × Constant) := []
  functions : List (Int × Function) := []
  structs : List (Int × Structure) := []
  /-- the imported modules that are done, each after those that it imports -/
  finished : List (Text × Exported) := []
  inProgress : List Text := []
  /-- the imports of a module that was checked before -/
  previous : List (Text × Module) := []
  missing : List Text := []

namespace Session

def reserveVar (s : Session) (id : Int) : Session :=
  { s with nextVar := Serial.after s.nextVar id }

/-- Reserves the numbers that a statement declares. -/
def reserveStmt (s : Session) : Stmt → Session
  | .letVar _ d => s.reserveVar d.id
  | .const _ d => { s with nextConst := Serial.after s.nextConst d.id }
  | .option _ d => { s with nextConst := Serial.after s.nextConst d.id }
  | .alias _ d => { s with nextAlias := Serial.after s.nextAlias d.id }
  | .struct _ d => { s with nextStruct := Serial.after s.nextStruct d.id }
  | .function _ h _ =>
    h.params.foldl (fun s p => s.reserveVar p.id) { s with nextFunc := Serial.after s.nextFunc h.id }
  | .external _ _ vars => vars.foldl (fun s v => s.reserveVar v.id) s
  | .forRange _ h _ => s.reserveVar h.id
  | .forEach _ h _ => s.reserveVar h.id
  | _ => s

def reserveNodes (s : Session) (m : Module) : Session :=
  (m.rootStmt.nodes.filterMap Node.stmt?).foldl reserveStmt s

/-- Reserves the numbers of a module and of those that it imports, so that a module that was checked
before keeps its numbers. -/
def reserve (s : Session) (m : Module) : Session :=
  m.imported.foldl
    (fun s i => reserveNodes { s with previous := i :: s.previous } i.2) (reserveNodes s m)

def constant? (s : Session) (id : Int) : Option Constant := s.constants.lookup id

/-- The value of a constant as far as it is known. -/
def value? (s : Session) (id : Int) : Option Value := do (← s.constant? id).value

/-- The value of a constant, with the defaults of options that are not given. -/
def valueOrDefault? (s : Session) (id : Int) : Option Value := do
  let c ← s.constant? id
  c.value <|> c.fallback

end Session

/-- What belongs to the module that is being checked. -/
structure Draft where
  scopes : Scopes := {}
  exports : List (Text × Binding) := []
  imports : List (Text × Module) := []
  /-- a module that could not be found may hold any name -/
  wildcard : Bool := false
  /-- declarations that stand before the statement that is being checked -/
  pending : List Stmt := []
  temporaries : Nat := 0
  bindings : List ((UInt32 × UInt32) × Text) := []

/-- Where a statement or an expression stands. -/
structure Site where
  settings : CheckSettings
  function : Option Function := none
  inLoop : Bool := false
  /-- under a condition whose value is not known yet -/
  conditional : Bool := false
  /-- may a temporary variable be declared before the statement? -/
  hoisting : Bool := true

structure State where
  session : Session
  draft : Draft := {}

end Check

/-- A check of a piece of a module, which may refuse it. -/
abbrev Check := ReaderT Check.Site (StateT Check.State (Except CheckError))

namespace Check

def reject {α : Type} (span : Span) (r : Rejection) : Check α := throw (.located span r)

def getSession : Check Session := return (← get).session

def modifySession (f : Session → Session) : Check Unit :=
  modify fun s => { s with session := f s.session }

def getDraft : Check Draft := return (← get).draft

def modifyDraft (f : Draft → Draft) : Check Unit := modify fun s => { s with draft := f s.draft }

/-- Takes over the result of a typing rule. -/
def typing {α : Type} (span : Span) : Except TypeError α → Check α
  | .ok a => return a
  | .error e => reject span (.typing e)

/-- Runs a check in a scope of its own. -/
def inScope {α : Type} (act : Check α) : Check α := do
  modifyDraft fun d => { d with scopes := d.scopes.push }
  let a ← act
  modifyDraft fun d => { d with scopes := d.scopes.pop }
  return a

/-- Runs a check and takes the declarations that have to stand before what is checked. -/
def collecting {α : Type} (act : Check α) : Check (List Stmt × α) := do
  let saved := (← getDraft).pending
  modifyDraft fun d => { d with pending := [] }
  let a ← act
  let pending := (← getDraft).pending
  modifyDraft fun d => { d with pending := saved }
  return (pending, a)

def lookup? (name : Text) : Check (Option Binding) := return (← getDraft).scopes.lookup? name

/-- Declares a symbol in the innermost scope. Under a condition that is not known yet, a declaration
takes the place of an earlier one. -/
def declare (name : Text) (span : Span) (b : Binding) : Check Unit := do
  let scopes := (← getDraft).scopes
  if (← read).conditional then modifyDraft fun d => { d with scopes := scopes.replace name b }
  else match scopes.declare? name b with
    | some scopes => modifyDraft fun d => { d with scopes }
    | none => reject span (.redeclared b.category name)

/-- Makes a symbol known to importing modules. -/
def publish (name : Text) (exported : Attr Bool) (b : Binding) (span : Span) : Check Unit := do
  if exported.value == some true then
    if (← read).function.isSome then reject span (.exportedLocal name)
    modifyDraft fun d => { d with exports := d.exports ++ [(name, b)] }

/-- A number for a variable, which keeps the one it has. -/
def variableId (id : Int) : Check Int := do
  if id != 0 then return id
  let next := (← getSession).nextVar
  modifySession fun s => { s with nextVar := Serial.next next }
  return next

def constantId (id : Int) : Check Int := do
  if id != 0 then return id
  let next := (← getSession).nextConst
  modifySession fun s => { s with nextConst := Serial.next next }
  return next

def functionId (id : Int) : Check Int := do
  if id != 0 then return id
  let next := (← getSession).nextFunc
  modifySession fun s => { s with nextFunc := Serial.next next }
  return next

def structId (id : Int) : Check Int := do
  if id != 0 then return id
  let next := (← getSession).nextStruct
  modifySession fun s => { s with nextStruct := Serial.next next }
  return next

def aliasId (id : Int) : Check Int := do
  if id != 0 then return id
  let next := (← getSession).nextAlias
  modifySession fun s => { s with nextAlias := Serial.next next }
  return next

def addVariable (id : Int) (v : Variable) : Check Unit :=
  modifySession fun s => { s with vars := (id, v) :: s.vars }

def addConstant (id : Int) (c : Constant) : Check Unit :=
  modifySession fun s => { s with constants := (id, c) :: s.constants }

/-- The value of an expression as far as it is known. -/
def evaluate (e : Expr) : Check (Except EvalError Value) :=
  return e.evaluate (← getSession).value?

/-- The value of an expression, with the defaults of options that are not given. -/
def evaluateWithDefaults (e : Expr) : Check (Except EvalError Value) :=
  return e.evaluate (← getSession).valueOrDefault?

end Check

end Shading
