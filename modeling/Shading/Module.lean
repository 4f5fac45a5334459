import Shading.Expr
import Shading.Walk

/-! Modules: what is compiled at a time. -/
namespace Shading

/-- The head of a module. The version is a hundred times the major number plus the minor one. -/
structure Metadata where
  name : Text := []
  version : UInt32 := 100
  author : Text := []
  description : Text := []
  license : Text := []
  /-- the names of the imported modules, in the order of the source -/
  imports : List Text := []
deriving DecidableEq, Repr

/-- The statements of a module at a place. -/
structure Block where
  span : Span := {}
  body : List Stmt := []

/-- A module with those that it imports. -/
structure Module where
  metadata : Option Metadata := none
  imported : List (Text × Module) := []
  root : Option Block := none

instance : Inhabited Module := ⟨{}⟩

namespace Block

def toStmt (b : Block) : Stmt := .multi b.span b.body

end Block

namespace Stmt

mutual

/-- The statements of a sequence, with sequences inside it taken apart. -/
def flatten : Stmt → List Stmt
  | .absent => []
  | .multi _ body => flattenAll body
  | s => [s]

def flattenAll : List Stmt → List Stmt
  | [] => []
  | s :: ss => flatten s ++ flattenAll ss

end

end Stmt

namespace Module

/-- The root as a statement. -/
def rootStmt (m : Module) : Stmt :=
  match m.root with
  | some b => b.toStmt
  | none => .absent

/-- The top-level statements, with sequences taken apart. -/
def topLevel (m : Module) : List Stmt := m.rootStmt.flatten

/-- The walk through the module's own statements. -/
def walk (m : Module) (keep : Node → Bool) : List Visit := m.rootStmt.walk keep

def head? : Stmt → Option FnHead
  | .function _ h _ => some h
  | _ => none

/-- The functions that the module itself declares at its top level. -/
def localFunctions (m : Module) : List FnHead := m.topLevel.filterMap head?

/-- All functions at the top level, those of imported modules first. -/
def functions (m : Module) : List FnHead :=
  m.imported.flatMap (fun i => i.2.localFunctions) ++ m.localFunctions

/-- The module's own entry points. -/
def entryPoints (m : Module) : List FnHead := m.localFunctions.filter (·.isEntry)

def findImported? (m : Module) (name : Text) : Option Module :=
  (m.imported.find? (·.1 == name)).map (·.2)

end Module

/-- Why the constants of a module have no values. -/
inductive ConstantError
  | constant (name : Text) (e : EvalError)
  | option (name : Text) (e : EvalError)
  | missing (name : Text)
deriving Repr

namespace ConstantError

def message : ConstantError → Text
  | .constant n e => "constant " ++ n ++ ": " ++ e.message
  | .option n e => "option " ++ n ++ ": " ++ e.message
  | .missing n => "option " ++ n ++ " has no value"

def isNotConstant : ConstantError → Bool
  | .constant _ e | .option _ e => e.isNotConstant
  | .missing _ => false

end ConstantError

/-- Values of constants by number. -/
structure Constants where
  entries : List (Int × Value) := []
deriving Inhabited

namespace Constants

def get? (c : Constants) (id : Int) : Option Value := (c.entries.find? (·.1 == id)).map (·.2)

/-- Stores a value; a later one for the same number wins. -/
def set (c : Constants) (id : Int) (v : Value) : Constants :=
  ⟨(id, v) :: c.entries.filter (·.1 != id)⟩

/-- Takes up the declaration of a constant or of an option. An option has the value that is given for
it, and otherwise its default. -/
def declare (given : OptionValues) (c : Constants) : Stmt → Except ConstantError Constants
  | .const _ d =>
    match d.value.evaluate c.get? with
    | .ok v => .ok (c.set d.id v)
    | .error e => .error (.constant d.name e)
  | .option _ d =>
    match given.get? d.name with
    | some v => .ok (c.set d.id v)
    | none =>
      if d.default.isAbsent then .error (.missing d.name)
      else match d.default.evaluate c.get? with
        | .ok v => .ok (c.set d.id v)
        | .error e => .error (.option d.name e)
  | _ => .ok c

/-- The values of all constants and options of a module and of the modules that it imports. -/
def ofModule (m : Module) (given : OptionValues) : Except ConstantError Constants :=
  let declared := (m.imported.map (·.2) ++ [m]).flatMap fun x => x.rootStmt.nodes.filterMap Node.stmt?
  declared.foldlM (declare given) {}

end Constants

end Shading
