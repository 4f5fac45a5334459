import Shading.Spirv.Expression

/-! The code of statements. -/
namespace Shading.Spirv.Code

/-- A variable of the function with its initial value. -/
def declareVariable (span : Span) (d : VarDecl) : Code Unit := do
  let t := if d.type.isPresent then d.type.denoted else d.init.type
  let pointer ← pooled span (.inVariable d.name) (Pool.pointerTo StorageClass.function t)
  let id ← drafted (Draft.declare pointer)
  giveName id d.name
  if d.init.isPresent then
    let init ← value d.init
    drafted (Draft.store id init)
  modify fun s => { s with locals := (d.id, ⟨id, StorageClass.function, t⟩) :: s.locals }

/-- Runs one of two pieces of code, the second of which may be missing. -/
def selection (condition : Code UInt32) (accepted : Code Unit) (rejected : Option (Code Unit)) :
    Code Unit := do
  let condition ← condition
  let accept ← drafted Draft.fresh
  let merge ← drafted Draft.fresh
  let reject ← if rejected.isSome then drafted Draft.fresh else pure merge
  drafted do
    Draft.selectionMerge merge 0
    Draft.branchConditional condition accept reject
    Draft.label accept
  accepted
  drafted (Draft.branchOn merge)
  match rejected with
  | some code =>
    drafted (Draft.label reject)
    code
    drafted (Draft.branchOn merge)
  | none => pure ()
  drafted (Draft.label merge)

def loopControl : Option Unroll → UInt32
  | some .always => LoopControl.unroll
  | some .never => LoopControl.dontUnroll
  | _ => LoopControl.none

/-- Runs code as long as a condition holds, which is tested in a block of its own. -/
def repetition (unroll : Option Unroll) (condition : Code UInt32) (body : Code Unit) : Code Unit := do
  let header ← drafted Draft.fresh
  let test ← drafted Draft.fresh
  let start ← drafted Draft.fresh
  let next ← drafted Draft.fresh
  let merge ← drafted Draft.fresh
  drafted do
    Draft.branch header
    Draft.label header
    Draft.loopMerge merge next (loopControl unroll)
    Draft.branch test
    Draft.label test
  let condition ← condition
  drafted do
    Draft.branchConditional condition start merge
    Draft.label start
  withReader (fun c => { c with loop := some ⟨merge, next⟩ }) body
  drafted do
    Draft.branchOn next
    Draft.label next
    Draft.branch header
    Draft.label merge

mutual

/-- The code of a statement. -/
def statement : Stmt → Code Unit
  | .expr _ e => do
    let _ ← value e
  | .letVar span d => declareVariable span d
  | .const .. | .alias .. | .option .. | .importFrom .. | .noOp _ => return
  | .branch _ true arms otherwise => do
    let n ← liftM ((← read).source.constants.selectArm arms)
    if n < arms.length then selectedArm n arms
    else if !otherwise.isAbsent then statement otherwise
  | .branch _ false arms otherwise =>
    branches (if otherwise.isAbsent then none else some (statement otherwise)) arms
  | .conditional _ cond body => do
    if ← liftM ((← read).source.constants.condition cond) then statement body
  | .loop _ cond unroll body => repetition unroll.value (value cond) (statement body)
  | .returnWith _ .absent => drafted Draft.leave
  | .returnWith _ e => do
    let result ← value e
    drafted (Draft.leaveWith result)
  | .discard span => do
    let c ← read
    if c.stages ≠ .single .fragment then fail span (.discardCaller c.name)
    drafted Draft.kill
  | .breakLoop span => do
    match (← read).loop with
    | some l => drafted (Draft.branch l.merge)
    | none => fail span .strayBreak
  | .continueLoop span => do
    match (← read).loop with
    | some l => drafted (Draft.branch l.next)
    | none => fail span .strayContinue
  | .multi _ body => statements body
  | .scoped _ body => statement body
  | s => fail s.span (.statement s.form)

def statements : List Stmt → Code Unit
  | [] => return
  | s :: ss => do
    statement s
    statements ss

/-- The code of the `n`th arm only. -/
def selectedArm : Nat → List (Expr × Stmt) → Code Unit
  | _, [] => return
  | 0, (_, s) :: _ => statement s
  | n + 1, _ :: arms => selectedArm n arms

/-- The code of arms, each of which runs if the conditions before it do not hold and its own does, and
of what runs if none holds. -/
def branches (last : Option (Code Unit)) : List (Expr × Stmt) → Code Unit
  | [] => return
  | (c, s) :: arms =>
    selection (value c) (statement s) (if arms.isEmpty then last else some (branches last arms))

end

end Shading.Spirv.Code
