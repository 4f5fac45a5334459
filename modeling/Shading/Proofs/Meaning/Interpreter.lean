import Mathlib.Logic.Function.Basic
import Shading.Expr
import Shading.Stmt
import Shading.Value.Fold

/-! What variables hold while a program runs. -/
namespace Shading.Meaning

/-- A value, or the parts of an array or a structure. -/
inductive Datum
  | plain (v : Value)
  | composite (parts : List Datum)
deriving Inhabited

/-- A way from a datum to a part of it. -/
inductive Access
  | item (i : Int)
  | components (cs : List UInt32)

namespace Datum

/-- What a call has that returns nothing. -/
def nothing : Datum := .plain .absent

/-- The number one of a scalar type. -/
def one : Ty → Datum
  | .prim p => .plain (Value.scalar p true)
  | _ => nothing

def value? : Datum → Option Value
  | .plain v => some v
  | .composite _ => none

def bool? : Datum → Option Bool
  | .plain (.bool b) => some b
  | _ => none

def int? (d : Datum) : Option Int := d.value? >>= Value.toInt?

def unary (op : UnaryOp) (d : Datum) : Option Datum := do
  let v ← d.value?
  return .plain (← (v.unary op).toOption)

def binary (op : BinaryOp) (l r : Datum) : Option Datum := do
  let v ← l.value?
  let w ← r.value?
  return .plain (← (v.binary op w).toOption)

/-- An array or a structure is made of its arguments as they are, everything else is converted. -/
def cast : Expr → List Datum → Option Datum
  | .structRef .., ds | .typeRef _ (.array ..), ds | .typeRef _ (.struct _), ds => some (.composite ds)
  | .typeRef _ t, ds => do
    let vs ← ds.mapM value?
    return .plain (← (Value.cast t vs).toOption)
  | _, _ => none

/-- The number of elements of an array, as a program reads it. -/
def size? : Datum → Option UInt32
  | .composite parts => some parts.length.toUInt32
  | .plain _ => none

/-- The number of elements that a loop over an array visits: that of its type, unless it is known at run
time only. -/
def count? (t : Ty) (d : Datum) : Option UInt32 :=
  match t with
  | .array _ n => if n = 0 then d.size? else some n
  | _ => d.size?

def part? (d : Datum) (a : Access) : Option Datum :=
  match d, a with
  | .composite parts, .item i => if i < 0 then none else parts[i.toNat]?
  | .plain v, .item i => (v.index i).toOption.map .plain
  | .plain v, .components cs => (v.swizzle cs).toOption.map .plain
  | .composite _, .components _ => none

/-- A vector with other components at some of its places. A scalar is a vector of one component. -/
def withComponents (v : Value) (places : List UInt32) (new : Value) : Value :=
  let changed := (places.zip new.spread).foldl (fun cs (c, w) => cs.set c.toNat w) v.spread
  match v, changed with
  | .vector _, cs => .vector cs
  | _, c :: _ => c
  | v, [] => v

def withPart (d : Datum) (a : Access) (new : Datum) : Option Datum :=
  match d, a, new with
  | .composite parts, .item i, new => some (.composite (parts.set i.toNat new))
  | .plain (.vector cs), .item i, .plain w => some (.plain (.vector (cs.set i.toNat w)))
  | .plain (.matrix cols), .item i, .plain (.vector c) => some (.plain (.matrix (cols.set i.toNat c)))
  | .plain v, .components cs, .plain w => some (.plain (withComponents v cs w))
  | _, _, _ => none

/-- The part at the end of a path. -/
def follow (d : Datum) (path : List Access) : Option Datum := path.foldlM part? d

/-- The datum with another part at the end of a path. -/
def updated (d : Datum) (new : Datum) : List Access → Option Datum
  | [] => some new
  | a :: path => do
    let inner ← d.part? a
    d.withPart a (← inner.updated new path)

end Datum

-- What programs do. A run reads and writes variables, and it may come to a stop before its end. Loops take a bounded
-- number of rounds and calls a bounded depth; a run that needs more has no result.

/-- Variables are known by number; one that holds nothing was never given a value. -/
abbrev Store := Int → Option Datum

/-- Why a run comes to a stop before its end. -/
inductive Stop
  | fault
  | discarded
deriving DecidableEq

abbrev Run := ExceptT Stop (StateT Store Option)

/-- How a statement ends. -/
inductive Flow
  | next
  | broken
  | continued
  | returned (d : Option Datum)

/-- What a program's statements refer to. -/
structure Machine where
  constants : Int → Option Value
  functions : Int → Option (FnHead × List Stmt)
  /-- the built-in functions other than the one for the size of an array -/
  intrinsic : Intrinsic → List Datum → Option Datum
  /-- what a variable holds that is declared without a value -/
  initial : VarDecl → Option Datum

/-- The built-in functions. -/
def Machine.apply (M : Machine) (f : Intrinsic) (args : List Datum) : Option Datum :=
  match f, args with
  | .size, [d] => d.size?.map fun n => .plain (.u32 n)
  | f, args => M.intrinsic f args

section

variable {α : Type}

/-- The run that has no result. -/
def diverge : Run α := fun _ => none

def fault : Run α := throw .fault

def orFault : Option α → Run α
  | some a => pure a
  | none => fault

def load (id : Int) : Run Datum := do orFault ((← get) id)

def store (id : Int) (d : Option Datum) : Run Unit := modify (Function.update · id d)

end

/-- Gives parameters their arguments. -/
def storeAll : List Int → List Datum → Run Unit
  | [], [] => pure ()
  | id :: ids, d :: ds => do
    store id (some d)
    storeAll ids ds
  | _, _ => fault

/-- The variable that an assignment changes. -/
def root? : Expr → Option Int
  | .var _ id => some id
  | .index _ base _ | .swizzle _ base _ => root? base
  | _ => none

/-- What an assignment stores: what it is given, or what its operator makes of it. -/
def combined (op : AssignOp) (id : Int) (path : List Access) (d : Datum) : Run Datum :=
  match op.binary? with
  | none => pure d
  | some b => do
    let old ← orFault ((← load id).follow path)
    orFault (old.binary b d)

/-- Changes a part of a variable. A variable as a whole need not have had a value. -/
def storeAt (id : Int) (path : List Access) (new : Datum) : Run Unit :=
  match path with
  | [] => store id (some new)
  | path => do
    let d ← orFault ((← load id).updated new path)
    store id (some d)

def assign (op : AssignOp) (id : Int) (path : List Access) (d : Datum) : Run Datum := do
  let new ← combined op id path d
  storeAt id path new
  return new

/-- What a loop does after a round. -/
def proceed (again : Run Flow) : Flow → Run Flow
  | .next | .continued => again
  | .broken => pure .next
  | .returned d => pure (.returned d)

/-- A round of a loop, if there is one. -/
def round (cond : Run Bool) (body again : Run Flow) : Run Flow := do
  if ← cond then body >>= proceed again else pure .next

/-- A loop of at most `n` rounds after the first. -/
def loop (cond : Run Bool) (body : Run Flow) : Nat → Run Flow
  | 0 => round cond body diverge
  | n + 1 => round cond body (loop cond body n)

/-- Visits one number after the other, at most `n` after the first. -/
def each (visit : Nat → Run Flow) : Nat → List Nat → Run Flow
  | _, [] => pure .next
  | 0, i :: _ => visit i >>= proceed diverge
  | n + 1, i :: is => visit i >>= proceed (each visit n is)

/-- Is a variable less than a bound? -/
def below (id : Int) (stop : Datum) : Run Bool := do
  orFault (← orFault ((← load id).binary .lt stop)).bool?

/-- Adds a step to a variable. -/
def advance (id : Int) (step : Datum) : Run Unit := do
  store id (some (← orFault ((← load id).binary .add step)))

/-- After a round that ends or goes on early, the variable of a loop takes its step. -/
def stepping (id : Int) (step : Datum) : Flow → Run Flow
  | .next => do advance id step; return .next
  | .continued => do advance id step; return .continued
  | f => pure f

section

variable (M : Machine) (call : Int → List Datum → Run Datum)

mutual

/-- Evaluates an expression, given what calls do. -/
def eval : Expr → Run Datum
  | .var _ id => load id
  | .const _ id => orFault ((M.constants id).map .plain)
  | .literal _ v => pure (.plain v)
  | .binary _ op l r => do
    let x ← eval l
    let y ← eval r
    orFault (x.binary op y)
  | .unary _ op e => do
    let x ← eval e
    orFault (x.unary op)
  | .assign _ op l r => do
    let d ← eval r
    let path ← pathTo l
    let id ← orFault (root? l)
    assign op id path d
  | .cast _ target args => do
    let ds ← evalAll args
    orFault (Datum.cast target ds)
  | .ternary _ c t f => do
    let x ← eval c
    if ← orFault x.bool? then eval t else eval f
  | .index _ base indices => do
    let d ← eval base
    let path ← items indices
    orFault (d.follow path)
  | .swizzle _ base s => do
    let d ← eval base
    orFault (d.part? (.components s.components))
  | .call _ (.function _ id) args => do
    let ds ← evalAll args
    call id ds
  | .intrinsic _ f args => do
    let ds ← evalAll args
    orFault (M.apply f ds)
  | _ => fault

def evalAll : List Expr → Run (List Datum)
  | [] => pure []
  | e :: es => do
    let d ← eval e
    let ds ← evalAll es
    return d :: ds

/-- The way from a variable to the part of it that an assignment changes. -/
def pathTo : Expr → Run (List Access)
  | .var .. => pure []
  | .index _ base indices => do
    let path ← pathTo base
    let inner ← items indices
    return path ++ inner
  | .swizzle _ base s => do
    let path ← pathTo base
    return path ++ [.components s.components]
  | _ => fault

def items : List Expr → Run (List Access)
  | [] => pure []
  | e :: es => do
    let d ← eval e
    let i ← orFault d.int?
    let path ← items es
    return .item i :: path

end

def condition (e : Expr) : Run Bool := do
  let d ← eval M call e
  orFault d.bool?

/-- What a variable holds after its declaration. -/
def initial (d : VarDecl) : Run (Option Datum) :=
  if d.init.isAbsent then pure (M.initial d) else some <$> eval M call d.init

/-- The step of a loop over a range, which is one if none is written. -/
def step (h : RangeHead) : Run Datum :=
  if h.step.isAbsent then pure (Datum.one h.start.type) else eval M call h.step

/-- What a function returns. -/
def returned (e : Expr) : Run (Option Datum) :=
  if e.isAbsent then pure none else some <$> eval M call e

variable (n : Nat)

mutual

/-- Runs a statement whose loops take at most `n` rounds after their first ones. -/
def exec : Stmt → Run Flow
  | .expr _ e => do
    let _ ← eval M call e
    return .next
  | .letVar _ d => do
    let x ← initial M call d
    store d.id x
    return .next
  | .branch _ _ arms otherwise => execArms arms (exec otherwise)
  | .conditional _ c body => do
    if ← condition M call c then exec body else return .next
  | .forRange _ h body => do
    let start ← eval M call h.start
    store h.id (some start)
    let stop ← eval M call h.stop
    let stride ← step M call h
    loop (below h.id stop) (exec body >>= stepping h.id stride) n
  | .forEach _ h body => do
    let array ← eval M call h.array
    let count ← orFault (array.count? h.array.type)
    let visit (i : Nat) : Run Flow := do
      let d ← orFault (array.part? (.item i))
      store h.id (some d)
      exec body
    each visit n (List.range count.toNat)
  | .loop _ c _ body => loop (condition M call c) (exec body) n
  | .returnWith _ e => do
    let d ← returned M call e
    return .returned d
  | .discard _ => throw .discarded
  | .breakLoop _ => return .broken
  | .continueLoop _ => return .continued
  | .multi _ body => execAll body
  | .scoped _ body => exec body
  | .absent | .const .. | .alias .. | .option .. | .struct .. | .function .. | .external ..
  | .importFrom .. | .noOp _ => return .next

/-- Runs statements until one of them does not let the next one run. -/
def execAll : List Stmt → Run Flow
  | [] => return .next
  | s :: ss => do
    match ← exec s with
    | .next => execAll ss
    | f => return f

/-- Runs the first statement whose condition holds. -/
def execArms : List (Expr × Stmt) → Run Flow → Run Flow
  | [], otherwise => otherwise
  | (c, s) :: arms, otherwise => do
    if ← condition M call c then exec s else execArms arms otherwise

end

end

/-- What a call has, given how the body of the function ends. -/
def result : Flow → Run Datum
  | .next => pure .nothing
  | .returned d => pure (d.getD .nothing)
  | .broken | .continued => fault

/-- Calls a function, with at most `n` calls inside each other. -/
def Machine.call (M : Machine) : Nat → Int → List Datum → Run Datum
  | 0, _, _ => diverge
  | n + 1, f, args => do
    let fn ← orFault (M.functions f)
    storeAll (fn.1.params.map (·.id)) args
    let flow ← execAll M (M.call n) n fn.2
    result flow

def Machine.exec (M : Machine) (n : Nat) : Stmt → Run Flow := Meaning.exec M (M.call n) n

/-- The statement runs to an end: to a flow, or to a stop before its end. -/
def Machine.Ends (M : Machine) (s : Stmt) (σ : Store) (r : Except Stop Flow) (σ' : Store) : Prop :=
  ∃ n, M.exec n s σ = some (r, σ')

def Machine.Diverges (M : Machine) (s : Stmt) (σ : Store) : Prop := ∀ n, M.exec n s σ = none

end Shading.Meaning
