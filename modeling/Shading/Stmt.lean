import Shading.Attribute
import Shading.Builtin
import Shading.Expr

/-! Statements and declarations. A place that may be left empty holds the statement `absent`. -/
namespace Shading

/-- The argument of an attribute: the expression that was written and, once it is known, its value. -/
structure Attr (α : Type) where
  expr : Expr := .absent
  value : Option α := none

namespace Attr

variable {α : Type}

/-- Was the attribute written, or is its value known? -/
def isPresent (a : Attr α) : Bool := a.expr.isPresent || a.value.isSome

/-- The attribute whose value is known. -/
def known (v : α) : Attr α := { value := some v }

/-- The attribute that is not there. -/
def none : Attr α := {}

instance : Inhabited (Attr α) := ⟨{}⟩

end Attr

/-- A variable with its initial value; its type may be left to the initial value. -/
structure VarDecl where
  name : Text
  type : Expr := .absent
  init : Expr := .absent
  id : Int := 0

structure ConstDecl where
  name : Text
  type : Expr := .absent
  value : Expr
  exported : Attr Bool := {}
  id : Int := 0

/-- Another name for a type, a structure or a function. -/
structure AliasDecl where
  name : Text
  target : Expr
  exported : Attr Bool := {}
  id : Int := 0

/-- A constant whose value is chosen when the module is compiled. Options and constants share one
sequence of numbers. -/
structure OptionDecl where
  name : Text
  type : Expr
  default : Expr := .absent
  id : Int := 0

structure StructMember where
  span : Span := {}
  name : Text
  type : Expr
  builtin : Attr Builtin := {}
  location : Attr UInt32 := {}
  /-- the condition under which the member exists -/
  cond : Expr := .absent

structure StructDecl where
  name : Text
  layout : Attr Layout := {}
  members : List StructMember := []
  exported : Attr Bool := {}
  id : Int := 0

structure FnParam where
  span : Span := {}
  name : Text
  type : Expr
  id : Int := 0

/-- A function without its body. -/
structure FnHead where
  name : Text
  params : List FnParam := []
  result : Expr := .absent
  stage : Attr Stage := {}
  earlyTests : Attr Bool := {}
  depthWrite : Attr DepthWrite := {}
  workgroup : Attr (UInt32 × UInt32 × UInt32) := {}
  exported : Attr Bool := {}
  id : Int := 0

def FnHead.isEntry (f : FnHead) : Bool := f.stage.isPresent

/-- A resource that is bound from outside. -/
structure External where
  span : Span := {}
  name : Text
  type : Expr
  set : Attr UInt32 := {}
  binding : Attr UInt32 := {}
  id : Int := 0

structure ImportItem where
  span : Span := {}
  name : Text
  /-- empty if the symbol keeps its name -/
  rename : Text := []
deriving DecidableEq

/-- A loop over the numbers from `start` up to but not including `stop`. -/
structure RangeHead where
  name : Text
  start : Expr
  stop : Expr
  step : Expr := .absent
  unroll : Attr Unroll := {}
  id : Int := 0

/-- A loop over the elements of an array. -/
structure EachHead where
  name : Text
  array : Expr
  unroll : Attr Unroll := {}
  id : Int := 0

/-- A statement or a declaration. -/
inductive Stmt
  | absent
  | expr (span : Span) (e : Expr)
  | letVar (span : Span) (d : VarDecl)
  | const (span : Span) (d : ConstDecl)
  | alias (span : Span) (d : AliasDecl)
  | option (span : Span) (d : OptionDecl)
  | struct (span : Span) (d : StructDecl)
  | function (span : Span) (head : FnHead) (body : List Stmt)
  /-- resources with the set that those without one of their own are in -/
  | external (span : Span) (set : Attr UInt32) (vars : List External)
  | branch (span : Span) (isConst : Bool) (arms : List (Expr × Stmt)) (otherwise : Stmt)
  /-- a statement that is there only if a constant condition holds -/
  | conditional (span : Span) (cond : Expr) (body : Stmt)
  | forRange (span : Span) (head : RangeHead) (body : Stmt)
  | forEach (span : Span) (head : EachHead) (body : Stmt)
  | loop (span : Span) (cond : Expr) (unroll : Attr Unroll) (body : Stmt)
  | returnWith (span : Span) (e : Expr)
  | discard (span : Span)
  | breakLoop (span : Span)
  | continueLoop (span : Span)
  /-- without items, every exported symbol is imported -/
  | importFrom (span : Span) (moduleName : Text) (items : List ImportItem)
  /-- statements in the scope that they stand in -/
  | multi (span : Span) (body : List Stmt)
  /-- a statement in a scope of its own -/
  | scoped (span : Span) (body : Stmt)
  | noOp (span : Span)
deriving Inhabited

namespace Stmt

def span : Stmt → Span
  | .absent => {}
  | .expr s _ | .letVar s _ | .const s _ | .alias s _ | .option s _ | .struct s _ | .function s ..
  | .external s .. | .branch s .. | .conditional s .. | .forRange s .. | .forEach s .. | .loop s ..
  | .returnWith s _ | .discard s | .breakLoop s | .continueLoop s | .importFrom s .. | .multi s _
  | .scoped s _ | .noOp s => s

def isAbsent : Stmt → Bool
  | .absent => true
  | _ => false

/-- The name of the statement's form. -/
def form : Stmt → Text
  | .absent => "<nil>"
  | .expr .. => "ExpressionStatement"
  | .letVar .. => "DeclareVariableStatement"
  | .const .. => "DeclareConstStatement"
  | .alias .. => "DeclareAliasStatement"
  | .option .. => "DeclareOptionStatement"
  | .struct .. => "DeclareStructStatement"
  | .function .. => "DeclareFunctionStatement"
  | .external .. => "DeclareExternalStatement"
  | .branch .. => "BranchStatement"
  | .conditional .. => "ConditionalStatement"
  | .forRange .. => "ForStatement"
  | .forEach .. => "ForEachStatement"
  | .loop .. => "WhileStatement"
  | .returnWith .. => "ReturnStatement"
  | .discard .. => "DiscardStatement"
  | .breakLoop .. => "BreakStatement"
  | .continueLoop .. => "ContinueStatement"
  | .importFrom .. => "ImportStatement"
  | .multi .. => "MultiStatement"
  | .scoped .. => "ScopedStatement"
  | .noOp .. => "NoOpStatement"

end Stmt

end Shading

-- The numbers by which declarations are known. They have 64 bits, and zero stands for none.
namespace Shading.Serial

/-- The number that follows another one. The least number follows the greatest. -/
def next (id : Int) : Int := (id + 1).bmod UInt64.size

/-- The number to give out after one is found in use: the one that follows it, unless that which was
to be given out is greater. -/
def after (upcoming id : Int) : Int := if upcoming ≤ id then next id else upcoming

end Shading.Serial
