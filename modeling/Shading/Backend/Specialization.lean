import Shading.Backend.Error
import Shading.Check

/-! Modules whose options all have values. -/
namespace Shading

/-- A function with the place of its declaration. -/
structure FunctionDecl where
  span : Span
  head : FnHead
  body : List Stmt
  /-- declared by the module itself and not by one that it imports -/
  own : Bool
  /-- declared under no condition -/
  unconditional : Bool

/-- A declaration outside functions that is there with the given options. -/
inductive Declaration
  | struct (d : StructDecl)
  | function (f : FunctionDecl)
  | external (v : External)
  | constant (id : Int) (name : Text)

/-- A module with values for all constants and the declarations that are there under them. -/
structure Specialization where
  result : Module
  constants : Constants
  declarations : List Declaration

namespace Constants

/-- The value of a condition. -/
def condition (c : Constants) (e : Expr) : Except BackendError Bool :=
  match e.evaluate c.get? with
  | .error err => .error (.located e.span (.condition err))
  | .ok (.bool b) => .ok b
  | .ok v => .error (.located e.span (.conditionType v.type))

/-- The position of the first arm whose condition holds, or the number of arms if none does. -/
def selectArm (c : Constants) : List (Expr × Stmt) → Except BackendError Nat
  | [] => .ok 0
  | (e, _) :: arms => do
    if ← c.condition e then return 0
    return (← c.selectArm arms) + 1

/-- The number of the member that a constant index selects, with the type of the member. -/
def memberOf (c : Constants) (r : Record Ty) (index : Expr) : Except BackendError (Nat × Text × Ty) :=
  match index.evaluate c.get? with
  | .error _ => .error (.located index.span (.memberNotConstant r.name))
  | .ok v =>
    let found := do
      let n ← v.toInt?
      if n < 0 then none else some (n.toNat, ← r.members[n.toNat]?)
    match found with
    | some (n, m) => .ok (n, m)
    | none => .error (.located index.span (.memberIndex v r.name))

end Constants

namespace Specialization

mutual

/-- The declarations of a statement that are there under the values of the constants. -/
def collect (c : Constants) (own unconditional : Bool) : Stmt → Except BackendError (List Declaration)
  | .multi _ body => collectAll c own unconditional body
  | .scoped _ body => collect c own false body
  | .conditional _ cond body => do
    if ← c.condition cond then collect c own false body else return []
  | .branch span isConst arms otherwise => do
    if !isConst then throw (.located span .strayBranch)
    let n ← c.selectArm arms
    if n < arms.length then collectArm c own n arms else collect c own false otherwise
  | .struct _ d => return [.struct d]
  | .function span head body => return [.function { span, head, body, own, unconditional }]
  | .external _ _ vars => return vars.map .external
  | .option _ d => return [.constant d.id d.name]
  | .const _ d => return [.constant d.id d.name]
  | _ => return []

def collectAll (c : Constants) (own unconditional : Bool) :
    List Stmt → Except BackendError (List Declaration)
  | [] => return []
  | s :: ss => do
    let first ← collect c own unconditional s
    return first ++ (← collectAll c own unconditional ss)

/-- The declarations of the `n`th arm. -/
def collectArm (c : Constants) (own : Bool) :
    Nat → List (Expr × Stmt) → Except BackendError (List Declaration)
  | _, [] => return []
  | 0, (_, s) :: _ => collect c own false s
  | n + 1, _ :: arms => collectArm c own n arms

end

/-- Refuses a module whose functions have no numbers yet. -/
private def requireChecked (m : Module) : Except BackendError Unit :=
  let declared := (m.imported.map (·.2) ++ [m]).flatMap fun x => x.rootStmt.nodes.filterMap Node.stmt?
  let unchecked := declared.findSome? fun s =>
    match s with
    | .function span h _ => if h.id = 0 then some (span, h.name) else none
    | _ => none
  match unchecked with
  | some (span, name) => .error (.located span (.unchecked name))
  | none => .ok ()

/-- Specializes a checked module: it is checked once more with the lowerings that a target needs, and
every option takes the value that is given for it or else its default. -/
def ofModule (m : Option Module) (settings : CheckSettings) : Except BackendError Specialization := do
  match m with
  | some m =>
    if m.root.isNone then throw (.located {} .emptyModule)
    requireChecked m
    let lowered ← (m.check settings).mapError .checking
    let constants ← (Constants.ofModule lowered settings.values).mapError fun e =>
      .located {} (.constants e)
    let imported ← lowered.imported.mapM fun i => collect constants false false i.2.rootStmt
    let own ← collect constants true true lowered.rootStmt
    return ⟨lowered, constants, imported.flatten ++ own⟩
  | none => throw (.located {} .emptyModule)

def structs (s : Specialization) : List StructDecl :=
  s.declarations.filterMap fun d => match d with
    | .struct d => some d
    | _ => none

def functions (s : Specialization) : List FunctionDecl :=
  s.declarations.filterMap fun d => match d with
    | .function f => some f
    | _ => none

def externals (s : Specialization) : List External :=
  s.declarations.filterMap fun d => match d with
    | .external v => some v
    | _ => none

/-- The constants and options with their numbers. -/
def named (s : Specialization) : List (Int × Text) :=
  s.declarations.filterMap fun d => match d with
    | .constant id name => some (id, name)
    | _ => none

/-- The last declaration of a structure with that number. -/
def struct? (s : Specialization) (id : Int) : Option StructDecl :=
  s.structs.reverse.find? (·.id == id)

/-- The last declaration of a function with that number. -/
def function? (s : Specialization) (id : Int) : Option FunctionDecl :=
  s.functions.reverse.find? (·.head.id == id)

end Specialization

namespace FunctionDecl

/-- The nodes of the body, each before its children. -/
def nodes (f : FunctionDecl) : List Node := Stmt.nodes (.multi {} f.body)

/-- The numbers of the functions that are called, in the order of the calls. -/
def callees (f : FunctionDecl) : List Int :=
  f.nodes.filterMap fun n => match n with
    | .expr (.call _ (.function _ id) _) => some id
    | _ => none

end FunctionDecl

/-- The type that an annotation stands for; none stands for no value. -/
def Expr.denoted : Expr → Ty
  | .absent => .void
  | .typeRef _ t => t
  | e => e.type

end Shading
