import Shading.Glsl.Expression

/-! Statements in GLSL. -/
namespace Shading.Glsl

/-- A local variable with its initial value. -/
def variableLines (span : Span) (d : VarDecl) : Glsl (List Text) := do
  let t ←
    if d.type.isPresent then pure d.type.denoted
    else if d.init.isPresent then pure d.init.type
    else fail span (.untypedVariable d.name)
  let init ← if d.init.isAbsent then pure [] else expression d.init
  let name ← freshName d.name
  modify fun s => { s with vars := (d.id, name) :: s.vars }
  let decl ← formed span (.inVariable d.name) (← declaration t name)
  let before ← takePending
  return before ++ [if d.init.isAbsent then decl ++ ";" else decl ++ " = " ++ init ++ ";"]

/-- A constant inside a function. -/
def constantLines (span : Span) (d : ConstDecl) : Glsl (List Text) := do
  match (← read).source.constants.get? d.id with
  | none => fail span (.constantWithoutValue d.name)
  | some v =>
    let name ← freshName d.name
    modify fun s => { s with constants := (d.id, name) :: s.constants }
    return [← constantLine name v]

/-- A loop. A condition that needs results of its own is computed at the top of the body. -/
def loopLines (cond : Text) (before body : List Text) : List Text :=
  if before.isEmpty then block ("while (" ++ cond ++ ") ") body [closing]
  else
    let test := block ("if (!(" ++ cond ++ ")) ") [Text.ofString "break;"] [closing]
    block "while (true) " (before ++ test ++ body) [closing]

/-- What follows the body of an arm: another arm with all that follows it. One whose condition needs
results of its own stands inside a block, so that they are computed only if it is reached. -/
def armLines (cond : Text) (before body rest : List Text) : List Text :=
  if before.isEmpty then block (closing ++ " else if (" ++ cond ++ ") ") body rest
  else block (closing ++ " else ") (before ++ block ("if (" ++ cond ++ ") ") body rest) [closing]

/-- Lines as they stand among other statements: those of a scope are between braces. -/
def enclose (s : Stmt) (lines : List Text) : List Text :=
  match s with
  | .scoped .. => block [] lines [closing]
  | _ => lines

mutual

/-- The lines of a statement inside braces; those of a scope itself are without further braces. -/
def content : Stmt → Glsl (List Text)
  | .absent => return []
  | .expr _ e => do
    let t ← effect e
    let before ← takePending
    return before ++ [t ++ ";"]
  | .letVar span d => variableLines span d
  | .const span d => constantLines span d
  | .multi _ body => statements body
  | .scoped _ body => return enclose body (← content body)
  | .branch _ true arms otherwise => do
    let n ← (← read).source.constants.selectArm arms
    if n < arms.length then selectedArm n arms else return enclose otherwise (← content otherwise)
  | .branch _ false [] _ => return []
  | .branch _ false ((c, s) :: arms) otherwise => do
    let cond ← condition c
    let before ← takePending
    let body ← content s
    let following ← furtherArms
      (if otherwise.isAbsent then pure [closing]
      else do return block (closing ++ " else ") (← content otherwise) [closing]) arms
    return before ++ block ("if (" ++ cond ++ ") ") body following
  | .conditional _ cond body => do
    if ← (← read).source.constants.condition cond then return enclose body (← content body)
    return []
  | .loop _ cond _ body => do
    let cond ← condition cond
    let before ← takePending
    let body ← content body
    return loopLines cond before body
  | .returnWith _ .absent => return ["return;"]
  | .returnWith _ e => do
    let t ← expression e
    let before ← takePending
    return before ++ ["return " ++ t ++ ";"]
  | .discard span => do
    let stage := (← read).settings.stage
    if stage == .fragment then return ["discard;"]
    fail span (.discardStage stage)
  | .breakLoop _ => return ["break;"]
  | .continueLoop _ => return ["continue;"]
  | .noOp _ | .importFrom .. | .alias .. | .option .. | .struct .. | .function .. | .external .. =>
    return []
  | .forRange span h body => fail span (.statement (Stmt.forRange span h body).form)
  | .forEach span h body => fail span (.statement (Stmt.forEach span h body).form)

def statements : List Stmt → Glsl (List Text)
  | [] => return []
  | s :: ss => do
    let first ← content s
    return enclose s first ++ (← statements ss)

/-- The lines of the `n`th arm only. -/
def selectedArm : Nat → List (Expr × Stmt) → Glsl (List Text)
  | _, [] => return []
  | 0, (_, s) :: _ => return enclose s (← content s)
  | n + 1, _ :: arms => selectedArm n arms

/-- What follows the body of an arm: further arms, and at last what follows all of them. -/
def furtherArms (last : Glsl (List Text)) : List (Expr × Stmt) → Glsl (List Text)
  | [] => last
  | (c, s) :: arms => do
    let cond ← condition c
    let before ← takePending
    let body ← content s
    return armLines cond before body (← furtherArms last arms)

end

end Shading.Glsl
