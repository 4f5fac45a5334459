import Shading.Backend.Specialization
import Shading.Spirv.Draft
import Shading.Spirv.Operator
import Shading.Spirv.Pool

/-! What is known while the code of a function is generated, and the code of operators. -/
namespace Shading.Spirv

/-- What modules are generated for. -/
structure Settings where
  version : Version := .v1_3
  values : OptionValues := {}
  /-- the stages whose entry points are wanted, or none for all of them -/
  stages : List Stage := []
  /-- capabilities that are declared besides those that the code needs -/
  capabilities : List UInt32 := []
  /-- Are names of declarations kept? -/
  debug : Bool := false

/-- A function with the number of its code. -/
structure Function where
  decl : FunctionDecl
  id : UInt32

/-- A variable or a part of one, which is read and written through a pointer. -/
structure Place where
  pointer : UInt32
  storage : UInt32
  type : Ty

/-- The block after a loop, and the block that starts its next round. -/
structure Loop where
  merge : UInt32
  next : UInt32

/-- What surrounds the code of a function. -/
structure Context where
  settings : Settings
  source : Specialization
  functions : List Function
  globals : List (Int × Place)
  /-- the number of the set of extended instructions -/
  extended : UInt32
  name : Text
  /-- the stages that the function runs in -/
  stages : StageSet
  loop : Option Loop := none

/-- The last function with that number in the module. -/
def function? (fs : List Function) (id : Int) : Option Function :=
  fs.reverse.find? (·.decl.head.id == id)

structure State where
  pool : Pool
  draft : Draft
  locals : List (Int × Place) := []

/-- Code of a function that is being generated. -/
abbrev Code := ReaderT Context (StateT State (Except BackendError))

namespace Code

def fail {α : Type} (span : Span) (o : Obstacle) : Code α := throw (.located span o)

/-- Adds to the module; what has no form is an obstacle at the place. -/
def pooled {α : Type} (span : Span) (obstacle : FormError → Obstacle) (step : Pooling α) : Code α := do
  match step (← get).pool with
  | .ok (a, pool) =>
    modify fun s => { s with pool }
    return a
  | .error e => fail span (obstacle e)

/-- Adds to the function. -/
def drafted {α : Type} (step : Drafting α) : Code α :=
  modifyGet fun s =>
    let ((a, draft), builder) := step s.draft s.pool.builder
    (a, { s with draft, pool := { s.pool with builder } })

/-- Adds to the sections outside functions. -/
def built {α : Type} (step : Build α) : Code α :=
  modifyGet fun s =>
    let (a, builder) := step s.pool.builder
    (a, { s with pool := { s.pool with builder } })

/-- Names what has a number, if names are kept. -/
def giveName (id : UInt32) (text : Text) : Code Unit := do
  if (← read).settings.debug then built (Builder.name id text)

/-- Ends the last block, if it is not at its end. -/
def close (last : Drafting Unit) : Code Unit := do
  if !(← get).draft.terminated then drafted last

/-- Adds the function to the module; the result is its number. -/
def finish : Code UInt32 := do
  let draft := (← get).draft
  built draft.finish
  return draft.id

def typeId (t : Ty) (span : Span) : Code UInt32 := pooled span .form (Pool.typeId t)

def constant (v : Value) (span : Span) : Code UInt32 := pooled span .form (Pool.constantId v)

def load (p : Place) (span : Span) : Code UInt32 := do
  let type ← typeId p.type span
  drafted (Draft.load type p.pointer)

/-- The variable with a number; one of the function comes first. -/
def lookup? (id : Int) : Code (Option Place) := do
  match (← get).locals.lookup id with
  | some p => return some p
  | none => return (← read).globals.reverse.lookup id

/-- A vector of equal components. What is no scalar is left as it is. -/
def broadcast (value : UInt32) (source target : Ty) (span : Span) : Code UInt32 := do
  match source, target with
  | .vector .., _ => return value
  | _, .vector n p =>
    let type ← typeId (.vector n p) span
    drafted (Draft.compositeConstruct type (List.replicate n.toNat value))
  | _, _ => return value

/-- Applies an operation to each column of one or two matrices. -/
def columnwise (op : Opcode) (columns rows : UInt32) (p : Primitive) (result : UInt32) (span : Span)
    (operands : List UInt32) : Code UInt32 := do
  let type ← typeId (.vector rows p) span
  let parts ← (List.range columns.toNat).mapM fun c => do
    let args ← operands.mapM fun m => drafted (Draft.compositeExtract type m [c.toUInt32])
    drafted (Draft.result op type args)
  drafted (Draft.compositeConstruct result parts)

/-- Converts the scalars of a value. -/
def convert (value : UInt32) (source target : Primitive) (result : UInt32) : Code UInt32 :=
  match conversion? source target with
  | none => return value
  | some op => drafted (Draft.unary op result value)

/-- The product of two matrices or of one and something else, or of a vector of floats and a scalar. -/
def product? : Ty → Ty → UInt32 → UInt32 → Option (Opcode × UInt32 × UInt32)
  | .matrix .., .matrix .., l, r => some (.opMatrixTimesMatrix, l, r)
  | .matrix .., .vector .., l, r => some (.opMatrixTimesVector, l, r)
  | .vector .., .matrix .., l, r => some (.opVectorTimesMatrix, l, r)
  | .matrix .., .prim _, l, r => some (.opMatrixTimesScalar, l, r)
  | .prim _, .matrix .., l, r => some (.opMatrixTimesScalar, r, l)
  | .vector _ p, .prim _, l, r => if p.isFloat then some (.opVectorTimesScalar, l, r) else none
  | .prim p, .vector .., l, r => if p.isFloat then some (.opVectorTimesScalar, r, l) else none
  | _, _, _, _ => none

/-- Arithmetic on scalars and vectors, where a scalar stands for a vector of its own, and sums and
differences of matrices. -/
def arithmetic (op : BinaryOp) (lt rt : Ty) (result l r : UInt32) (span : Span) : Code UInt32 := do
  let opcode := Spirv.arithmetic op (lt.scalar?.getD .bool)
  match lt, rt with
  | .matrix c rows p, .matrix .. =>
    if op == .add || op == .sub then columnwise opcode c rows p result span [l, r]
    else fail span (.operands op lt rt)
  | .matrix .., _ | _, .matrix .. => fail span (.operands op lt rt)
  | .vector .., .prim _ => do
    let r ← broadcast r rt lt span
    drafted (Draft.binary opcode result l r)
  | .prim _, .vector .. => do
    let l ← broadcast l lt rt span
    drafted (Draft.binary opcode result l r)
  | _, _ => drafted (Draft.binary opcode result l r)

/-- Applies an operator to two operands of given types. -/
def binary (op : BinaryOp) (lt rt result : Ty) (l r : UInt32) (span : Span) : Code UInt32 := do
  let type ← typeId result span
  let scalar := lt.scalar?.getD .bool
  if op.isLogical then
    drafted (Draft.binary (if op == .or then .opLogicalOr else .opLogicalAnd) type l r)
  else if op.isComparison then
    match comparison? op scalar with
    | some opcode => drafted (Draft.binary opcode type l r)
    | none => fail span (.comparison op scalar)
  else if op.isBitwise then
    -- a vector may be shifted by a scalar
    let r ← broadcast r rt lt span
    drafted (Draft.binary (bitwise op scalar) type l r)
  else
    match if op == .mul then product? lt rt l r else none with
    | some (opcode, a, b) => drafted (Draft.binary opcode type a b)
    | none => arithmetic op lt rt type l r span

/-- Applies an operator to an operand. -/
def unary (op : UnaryOp) (result : Ty) (operand : UInt32) (span : Span) : Code UInt32 := do
  if op == .plus then return operand
  let type ← typeId result span
  let negation : Opcode := if (result.scalar?.getD .bool).isFloat then .opFNegate else .opSNegate
  match op, result with
  | .not, _ => drafted (Draft.unary .opLogicalNot type operand)
  | .bitNot, _ => drafted (Draft.unary .opNot type operand)
  | _, .matrix c rows p => columnwise negation c rows p type span [operand]
  | _, _ => drafted (Draft.unary negation type operand)

/-- The columns of a matrix that is built from its components. -/
def columnsOf (type : UInt32) (rows : Nat) : Nat → List UInt32 → Code (List UInt32)
  | 0, _ => return []
  | n + 1, parts => do
    let column ← drafted (Draft.compositeConstruct type (parts.take rows))
    return column :: (← columnsOf type rows n (parts.drop rows))

/-- A conversion, or a vector, a matrix or an array built from its parts. -/
def cast (target : Ty) (result : UInt32) (args : List (UInt32 × Ty)) (span : Span) : Code UInt32 := do
  let parts := args.map (·.1)
  match target, args with
  | .prim p, (v, t) :: _ =>
    convert v (match t with | .prim q => q | _ => .bool) p result
  | .vector n p, [(v, .prim q)] => do
    let scalar ← typeId (.prim p) span
    let v ← convert v q p scalar
    broadcast v (.prim p) (.vector n p) span
  | .vector _ p, [(v, .vector _ q)] => convert v q p result
  | .vector .., _ => drafted (Draft.compositeConstruct result parts)
  | .matrix .., [(v, .matrix c r p)] =>
    if target.same (.matrix c r p) then return v
    fail span (.matrixCast (.matrix c r p) target)
  | .matrix c r p, _ =>
    if parts.length = (c * r).toNat && r > 1 then
      let column ← typeId (.vector r p) span
      let columns ← columnsOf column r.toNat c.toNat parts
      drafted (Draft.compositeConstruct result columns)
    else drafted (Draft.compositeConstruct result parts)
  | .array .., _ => drafted (Draft.compositeConstruct result parts)
  | t, _ => fail span (.castTarget t)

/-- Applies a built-in function to its arguments. An image is sampled with derivatives only where there
are some, which is in the fragment stage. -/
def intrinsic (f : Intrinsic) (first : Ty) (result : UInt32) (args : List UInt32) (span : Span) :
    Code UInt32 := do
  match f, args with
  | .dot, l :: r :: _ => drafted (Draft.binary .opDot result l r)
  | .all, v :: _ => drafted (Draft.unary .opAll result v)
  | .any, v :: _ => drafted (Draft.unary .opAny result v)
  | .transpose, v :: _ => drafted (Draft.unary .opTranspose result v)
  | .sample, image :: coordinate :: _ =>
    if (← read).stages == .single .fragment then
      drafted (Draft.sampleImplicitLod result image coordinate)
    else
      let lod ← constant (.f32 ⟨0⟩) span
      drafted (Draft.sampleExplicitLod result image coordinate lod)
  | _, _ =>
    match extended? f (first.scalar?.getD .bool) with
    | some n => do drafted (Draft.extInst result (← read).extended n args)
    | none => fail span (.intrinsicOn f first)

/-- Selects components. A scalar stands for a vector of its own. -/
def swizzle (selector : List UInt32) (source : Ty) (result value : UInt32) (span : Span) : Code UInt32 :=
  match source, selector with
  | .prim _, [_] => return value
  | .prim _, cs => drafted (Draft.compositeConstruct result (cs.map fun _ => value))
  | .vector .., [c] => drafted (Draft.compositeExtract result value [c])
  | .vector .., cs => drafted (Draft.vectorShuffle result value value cs)
  | t, _ => fail span (.swizzledType t)

/-- Writes components of a vector: those selected are taken from the new value, in its order. -/
def shuffled (count : Nat) (selector : List UInt32) : List UInt32 :=
  selector.zipIdx.foldl (fun cs (c, i) => cs.set c.toNat (count + i).toUInt32)
    ((List.range count).map Nat.toUInt32)

end Code

end Shading.Spirv
