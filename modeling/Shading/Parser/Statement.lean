import Shading.Parser.Declaration

/-! Statements and functions from tokens. -/
namespace Shading.Parser

def assignOp? : TokenKind → Option AssignOp
  | .equal => some .simple
  | .plusEqual => some .add
  | .minusEqual => some .sub
  | .starEqual => some .mul
  | .slashEqual => some .div
  | .percentEqual => some .mod
  | .ampAmpEqual => some .and
  | .pipePipeEqual => some .or
  | _ => none

def letStmt (fuel : Nat) : Parser Stmt := do
  let start ← advance
  let name ← expect .identifier
  let type ← if ← accept .colon then typeExpression fuel else pure .absent
  let init ← if ← accept .equal then expression fuel else pure .absent
  if type.isAbsent && init.isAbsent then throw (.untypedVariable name.lexeme (← peek))
  let _ ← expect .semicolon
  return .letVar start.span { name := name.lexeme, type, init }

def returnStmt (fuel : Nat) : Parser Stmt := do
  let start ← advance
  let e ← if ← check .semicolon then pure .absent else expression fuel
  let _ ← expect .semicolon
  return .returnWith start.span e

def expressionStmt (fuel : Nat) : Parser Stmt := do
  let start ← peek
  let lhs ← expression fuel
  let e ← match assignOp? (← peekKind) with
    | some op => do
      let _ ← advance
      let rhs ← expression fuel
      pure (.assign (untyped start.span) op lhs rhs)
    | none => pure lhs
  let _ ← expect .semicolon
  return .expr start.span e

def parenExpression (fuel : Nat) : Parser Expr := do
  let _ ← expect .leftParen
  let e ← expression fuel
  let _ ← expect .rightParen
  return e

/-- The attributes of a statement, of which only the unrolling of a loop is one. -/
def statementAttributes (fuel : Nat) : Parser (Attr Unroll) := do
  let attrs ← attributes fuel
  let (unrollAttr, attrs) := Attribute.take attrs "unroll"
  let unroll ← match unrollAttr with
    | none => pure {}
    | some a => do
      let u : Attr Unroll ← if a.args.isEmpty then pure (Attr.known .always)
        else do pure { expr := ← a.exprArg }
      if !(← check .kwFor) && !(← check .kwWhile) then
        throw (.unrollTarget (← peekKind) a.span)
      pure u
  Attribute.rejectAll attrs "statement"
  return unroll

mutual

/-- Statements between braces. -/
def block : Nat → Parser (List Stmt)
  | 0 => throw .exhausted
  | fuel + 1 => do
    let _ ← expect .leftBrace
    let body ← statements fuel
    let _ ← expect .rightBrace
    return body

def statements : Nat → Parser (List Stmt)
  | 0 => throw .exhausted
  | fuel + 1 => do
    if (← check .rightBrace) || (← check .endOfFile) then return []
    let s ← statement fuel
    let ss ← statements fuel
    return s :: ss

/-- A statement inside a function. -/
def statement : Nat → Parser Stmt
  | 0 => throw .exhausted
  | fuel + 1 => do
    let unroll ← statementAttributes fuel
    let tok ← peek
    match tok.kind with
    | .leftBrace =>
      let body ← block fuel
      return .scoped tok.span (.multi tok.span body)
    | .kwLet => letStmt fuel
    | .kwConst =>
      if (← peekSecond) = .kwIf then
        let _ ← advance
        branches fuel true tok.span []
      else constDecl fuel []
    | .kwIf => branches fuel false tok.span []
    | .kwWhile =>
      let start ← advance
      let cond ← parenExpression fuel
      let body ← statement fuel
      return .loop start.span cond unroll body
    | .kwFor => forStmt fuel unroll
    | .kwReturn => returnStmt fuel
    | .kwBreak =>
      let _ ← advance
      let _ ← expect .semicolon
      return .breakLoop tok.span
    | .kwContinue =>
      let _ ← advance
      let _ ← expect .semicolon
      return .continueLoop tok.span
    | .kwDiscard =>
      let _ ← advance
      let _ ← expect .semicolon
      return .discard tok.span
    | .semicolon =>
      let _ ← advance
      return .noOp tok.span
    | _ => expressionStmt fuel

/-- A chain of conditions, after the arms that were read before. -/
def branches : Nat → Bool → Span → List (Expr × Stmt) → Parser Stmt
  | 0, _, _, _ => throw .exhausted
  | fuel + 1, isConst, start, arms => do
    let _ ← expect .kwIf
    let cond ← parenExpression fuel
    let body ← statement fuel
    let arms := arms ++ [(cond, body)]
    if !(← accept .kwElse) then return .branch start isConst arms .absent
    if ← check .kwIf then branches fuel isConst start arms
    else
      let other ← statement fuel
      return .branch start isConst arms other

/-- A loop over an array, or over a range of numbers with a step that may be left out. -/
def forStmt : Nat → Attr Unroll → Parser Stmt
  | 0, _ => throw .exhausted
  | fuel + 1, unroll => do
    let start ← advance
    let name ← expect .identifier
    let _ ← expect .kwIn
    let e ← expression fuel
    if !(← accept .arrow) then
      let body ← statement fuel
      return .forEach start.span { name := name.lexeme, array := e, unroll } body
    let stop ← expression fuel
    let step ← if ← accept .colon then expression fuel else pure .absent
    let body ← statement fuel
    return .forRange start.span { name := name.lexeme, start := e, stop, step, unroll } body

end

def parameters : Nat → Parser (List FnParam)
  | 0 => throw .exhausted
  | fuel + 1 => do
    if (← check .rightParen) || (← check .endOfFile) then return []
    let name ← expect .identifier
    let _ ← expect .colon
    let type ← typeExpression fuel
    let p : FnParam := { span := name.span, name := name.lexeme, type }
    if ← accept .comma then
      let ps ← parameters fuel
      return p :: ps
    return [p]

/-- Workgroup sizes as a vector of three, missing ones being one. -/
def workgroupExpr (a : Attribute) : Except ParseError Expr :=
  if a.args.isEmpty || 3 < a.args.length then .error (.workgroupSizes a.args.length a.span)
  else
    let info := untyped a.span
    let ones := List.replicate (3 - a.args.length) (Expr.literal info (.u32 1))
    .ok (.call info (.index info (.name info "vec3") [.name info "u32"]) (a.args ++ ones))

def functionDecl (fuel : Nat) (attrs : List Attribute) : Parser Stmt := do
  let (entryAttr, attrs) := Attribute.take attrs "entry"
  let stage ← Attribute.optionalArg entryAttr
  let (earlyAttr, attrs) := Attribute.take attrs "early_fragment_tests"
  let earlyTests ← Attribute.flag earlyAttr
  let (depthAttr, attrs) := Attribute.take attrs "depth_write"
  let depthWrite ← Attribute.optionalArg depthAttr
  let (groupAttr, attrs) := Attribute.take attrs "workgroup"
  let workgroup ← match groupAttr with
    | some a => liftM (workgroupExpr a)
    | none => pure .absent
  let (exportAttr, attrs) := Attribute.take attrs "export"
  let exported ← Attribute.flag exportAttr
  Attribute.rejectAll attrs "function"
  let start ← advance
  let name ← expect .identifier
  let _ ← expect .leftParen
  let params ← parameters fuel
  let _ ← expect .rightParen
  let result ← if ← accept .arrow then typeExpression fuel else pure .absent
  let body ← block fuel
  return .function start.span
    { name := name.lexeme, params, result, stage := { expr := stage }, earlyTests,
      depthWrite := { expr := depthWrite }, workgroup := { expr := workgroup }, exported } body

end Shading.Parser
