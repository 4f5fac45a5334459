import Shading.Operator
import Shading.Source
import Shading.Value
import Shading.Value.Fold

/-! Expressions, and the values of those that are constant. A place that may be left empty holds the expression
`absent`. -/
namespace Shading

/-- What every expression carries: where it stands and, once it is known, its type. -/
structure ExprInfo where
  span : Span := {}
  type : Ty := .unknown
deriving Repr, Inhabited

/-- A name at a place. -/
structure Name where
  text : Text
  span : Span := {}
deriving Repr, DecidableEq

/-- A component selector: as many of the four components as counted, which are at most four. -/
structure Selector where
  c0 : UInt32 := 0
  c1 : UInt32 := 0
  c2 : UInt32 := 0
  c3 : UInt32 := 0
  count : UInt32 := 0
deriving Repr, DecidableEq

namespace Selector

def all (s : Selector) : List UInt32 := [s.c0, s.c1, s.c2, s.c3]

def components (s : Selector) : List UInt32 := s.all.take s.count.toNat

/-- The selector of a list of components; those past the fourth are not kept. -/
def ofList (cs : List UInt32) : Selector :=
  ⟨cs.getD 0 0, cs.getD 1 0, cs.getD 2 0, cs.getD 3 0, cs.length.toUInt32⟩

end Selector

/-- An expression. Names are what a source holds; variables, constants, functions and structures are
referred to by number once names are resolved. -/
inductive Expr
  | absent
  | name (info : ExprInfo) (name : Text)
  | var (info : ExprInfo) (id : Int)
  | const (info : ExprInfo) (id : Int)
  | literal (info : ExprInfo) (v : Value)
  | binary (info : ExprInfo) (op : BinaryOp) (l r : Expr)
  | unary (info : ExprInfo) (op : UnaryOp) (e : Expr)
  | assign (info : ExprInfo) (op : AssignOp) (l r : Expr)
  /-- a conversion, or a vector, matrix, structure or array built from its arguments -/
  | cast (info : ExprInfo) (target : Expr) (args : List Expr)
  | ternary (info : ExprInfo) (c t f : Expr)
  /-- also a member of a structure, once its index is known -/
  | index (info : ExprInfo) (base : Expr) (indices : List Expr)
  | member (info : ExprInfo) (base : Expr) (names : List Name)
  | swizzle (info : ExprInfo) (base : Expr) (selector : Selector)
  | call (info : ExprInfo) (target : Expr) (args : List Expr)
  | method (info : ExprInfo) (object : Expr) (name : Text) (args : List Expr)
  | intrinsic (info : ExprInfo) (fn : Intrinsic) (args : List Expr)
  | function (info : ExprInfo) (id : Int)
  | intrinsicRef (info : ExprInfo) (fn : Intrinsic)
  | structRef (info : ExprInfo) (id : Int)
  | typeRef (info : ExprInfo) (value : Ty)
deriving Inhabited

namespace Expr

def info : Expr → ExprInfo
  | .absent => {}
  | .name i _ | .var i _ | .const i _ | .literal i _ | .binary i .. | .unary i .. | .assign i ..
  | .cast i .. | .ternary i .. | .index i .. | .member i .. | .swizzle i .. | .call i ..
  | .method i .. | .intrinsic i .. | .function i _ | .intrinsicRef i _ | .structRef i _
  | .typeRef i _ => i

def span (e : Expr) : Span := e.info.span

def type (e : Expr) : Ty := e.info.type

/-- The expression with other information. -/
def withInfo (i : ExprInfo) : Expr → Expr
  | .absent => .absent
  | .name _ n => .name i n
  | .var _ n => .var i n
  | .const _ n => .const i n
  | .literal _ v => .literal i v
  | .binary _ op l r => .binary i op l r
  | .unary _ op e => .unary i op e
  | .assign _ op l r => .assign i op l r
  | .cast _ t as => .cast i t as
  | .ternary _ c t f => .ternary i c t f
  | .index _ b is => .index i b is
  | .member _ b ns => .member i b ns
  | .swizzle _ b s => .swizzle i b s
  | .call _ t as => .call i t as
  | .method _ o n as => .method i o n as
  | .intrinsic _ f as => .intrinsic i f as
  | .function _ n => .function i n
  | .intrinsicRef _ f => .intrinsicRef i f
  | .structRef _ n => .structRef i n
  | .typeRef _ t => .typeRef i t

def withType (e : Expr) (t : Ty) : Expr := e.withInfo { e.info with type := t }

def isAbsent : Expr → Bool
  | .absent => true
  | _ => false

def isPresent (e : Expr) : Bool := !e.isAbsent

/-- The name of the expression's form. -/
def form : Expr → Text
  | .absent => "<nil>"
  | .name .. => "IdentifierExpression"
  | .var .. => "VariableValueExpression"
  | .const .. => "ConstantExpression"
  | .literal .. => "ConstantValueExpression"
  | .binary .. => "BinaryExpression"
  | .unary .. => "UnaryExpression"
  | .assign .. => "AssignExpression"
  | .cast .. => "CastExpression"
  | .ternary .. => "ConditionalExpression"
  | .index .. => "AccessIndexExpression"
  | .member .. => "AccessIdentifierExpression"
  | .swizzle .. => "SwizzleExpression"
  | .call .. => "CallFunctionExpression"
  | .method .. => "CallMethodExpression"
  | .intrinsic .. => "IntrinsicExpression"
  | .function .. => "FunctionExpression"
  | .intrinsicRef .. => "IntrinsicFunctionExpression"
  | .structRef .. => "StructTypeExpression"
  | .typeRef .. => "TypeExpression"

/-- A literal with the type of its value. -/
def ofValue (span : Span) (v : Value) : Expr := .literal ⟨span, v.type⟩ v

/-- A reference to a known type. -/
def ofType (span : Span) (t : Ty) : Expr := .typeRef ⟨span, t⟩ t

/-- A variable of a known type. -/
def ofVar (span : Span) (id : Int) (t : Ty) : Expr := .var ⟨span, t⟩ id

end Expr

end Shading

namespace Shading.Expr

mutual

/-- The value of an expression, given those of the constants that have one. -/
def evaluate (lookup : Int → Option Value) : Expr → Except EvalError Value
  | .literal _ v => .ok v
  | .const _ id =>
    match lookup id with
    | some v => .ok v
    | none => .error (.noValue id)
  | .unary _ op e => do
    let v ← evaluate lookup e
    v.unary op
  | .binary _ op l r => do
    let x ← evaluate lookup l
    let y ← evaluate lookup r
    x.binary op y
  | .ternary _ c t f => do
    match ← evaluate lookup c with
    | .bool true => evaluate lookup t
    | .bool false => evaluate lookup f
    | v => .error (.conditionType v.type)
  | .cast _ (.typeRef _ target) args => do
    let vs ← evaluateAll lookup args
    Value.cast target vs
  | .swizzle _ base s => do
    let v ← evaluate lookup base
    v.swizzle s.components
  | .index _ base indices => do
    let v ← evaluate lookup base
    evaluateIndices lookup v indices
  | _ => .error .notConstant

def evaluateAll (lookup : Int → Option Value) : List Expr → Except EvalError (List Value)
  | [] => .ok []
  | e :: es => do
    let v ← evaluate lookup e
    let vs ← evaluateAll lookup es
    return v :: vs

/-- Indexes a value by one constant after the other. -/
def evaluateIndices (lookup : Int → Option Value) (v : Value) : List Expr → Except EvalError Value
  | [] => .ok v
  | e :: es => do
    let i ← evaluate lookup e
    match i.toInt? with
    | none => .error (.indexType i.type)
    | some n =>
      let w ← v.index n
      evaluateIndices lookup w es

end

end Shading.Expr
