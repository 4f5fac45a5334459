import Shading.Parser

/-! The parts of the parser that come back to themselves, each with what it takes of itself and of the others made a
parameter. -/
namespace Shading.Parser

/-- The functions of the parser that come back to themselves, and its loops, with what they read. -/
inductive Rule : Type → Type
  | primary : Rule Expr
  | postfixed : Rule Expr
  | postfixes (e : Expr) : Rule Expr
  | unary : Rule Expr
  | operators (bound : Nat) (lhs : Expr) : Rule Expr
  | expression : Rule Expr
  | indexList : Rule (List Expr)
  | arguments : Rule (List Expr)
  | argumentList : Rule (List Expr)
  | dottedRest (name : Text) : Rule Text
  | attributeGroup (seen : List Attribute) : Rule (List Attribute)
  | attributeGroups (seen : List Attribute) : Rule (List Attribute)
  | importItems (item : ImportItem) : Rule (List ImportItem)
  | structMembers : Rule (List StructMember)
  | externalVars : Rule (List External)
  | parameters : Rule (List FnParam)
  | block : Rule (List Stmt)
  | statements : Rule (List Stmt)
  | statement : Rule Stmt
  | branches (isConst : Bool) (start : Span) (arms : List (Expr × Stmt)) : Rule Stmt
  | forStmt (unroll : Attr Unroll) : Rule Stmt
  | declarations : Rule (List Stmt)

namespace Rule

variable {α : Type}

/-- Without passing a token, a rule may go on with one of a lower rank. -/
def rank : Rule α → Nat
  | .primary | .operators .. | .arguments | .dottedRest _ | .attributeGroup _ | .importItems _ | .parameters | .block
  | .branches .. | .forStmt _ => 1
  | .postfixed | .postfixes _ | .attributeGroups _ => 2
  | .unary => 3
  | .expression => 4
  | .indexList | .argumentList | .structMembers | .externalVars | .statement | .declarations => 5
  | .statements => 6

/-- How many tokens a rule passes at least. -/
def least : Rule α → Nat
  | .operators .. | .postfixes _ | .argumentList | .dottedRest _ | .attributeGroups _ | .importItems _ | .structMembers
  | .externalVars | .parameters | .statements | .declarations => 0
  | .primary | .postfixed | .unary | .expression | .indexList | .arguments | .attributeGroup _ | .block | .statement
  | .branches .. | .forStmt _ => 1

/-- What a rule reads with a bound on the recursion. -/
def runs (fuel : Nat) ⦃α : Type⦄ : Rule α → Parser α
  | .primary => Parser.primary fuel
  | .postfixed => Parser.postfixed fuel
  | .postfixes e => Parser.postfixes fuel e
  | .unary => Parser.unary fuel
  | .operators bound lhs => Parser.operators fuel bound lhs
  | .expression => Parser.expression fuel
  | .indexList => Parser.indexList fuel
  | .arguments => Parser.arguments fuel
  | .argumentList => Parser.argumentList fuel
  | .dottedRest name => Parser.dottedRest name fuel
  | .attributeGroup seen => Parser.attributeGroup seen fuel
  | .attributeGroups seen => Parser.attributeGroups seen fuel
  | .importItems item => Parser.importItems item fuel
  | .structMembers => Parser.structMembers fuel
  | .externalVars => Parser.externalVars fuel
  | .parameters => Parser.parameters fuel
  | .block => Parser.block fuel
  | .statements => Parser.statements fuel
  | .statement => Parser.statement fuel
  | .branches isConst start arms => Parser.branches fuel isConst start arms
  | .forStmt unroll => Parser.forStmt fuel unroll
  | .declarations => Parser.declarations fuel

/-- What a rule reads where it takes what it needs of itself and of others from given parsers. -/
def body (fuel : Nat) (call : ∀ ⦃β : Type⦄, Rule β → Parser β) ⦃α : Type⦄ : Rule α → Parser α
  | .primary => do
    let tok ← peek
    match tok.kind with
    | .intLiteral =>
      let _ ← advance
      match Literal.int tok.lexeme with
      | .ok v => return .literal (untyped tok.span) v
      | .error e => throw (.intLiteral tok e)
    | .floatLiteral =>
      let _ ← advance
      match Literal.float? tok.lexeme with
      | some v => return .literal (untyped tok.span) v
      | none => throw (.floatLiteral tok)
    | .kwTrue =>
      let _ ← advance
      return .literal (untyped tok.span) (.bool true)
    | .kwFalse =>
      let _ ← advance
      return .literal (untyped tok.span) (.bool false)
    | .identifier =>
      let _ ← advance
      let name := Expr.name (untyped tok.span) tok.lexeme
      if (← check .less) && genericNames.elem tok.lexeme then
        let _ ← advance
        let arg ← call .postfixed
        let _ ← expect .greater
        return .index (untyped tok.span) name [arg]
      return name
    | .leftParen =>
      let _ ← advance
      let e ← call .expression
      let _ ← expect .rightParen
      return e
    | _ => throw (.noExpression tok)
  | .postfixed => do
    let e ← call .primary
    call (.postfixes e)
  | .postfixes e => do
    if ← check .leftParen then
      let args ← call .arguments
      call (.postfixes (.call (untyped e.span) e args))
    else if ← accept .leftBracket then
      let indices ← call .indexList
      let _ ← expect .rightBracket
      call (.postfixes (indexed e indices))
    else if ← accept .dot then
      let name ← expect .identifier
      if ← check .leftParen then
        let args ← call .arguments
        call (.postfixes (.method (untyped e.span) e name.lexeme args))
      else call (.postfixes (selected e ⟨name.lexeme, name.span⟩))
    else return e
  | .unary => do
    match unaryOp? (← peekKind) with
    | none => call .postfixed
    | some op =>
      let tok ← advance
      let operand ← call .unary
      return .unary (untyped tok.span) op operand
  | .operators bound lhs => do
    match binaryOp? (← peekKind) with
    | none => return lhs
    | some (level, op) =>
      if level ≤ bound then return lhs
      let _ ← advance
      let operand ← call .unary
      let rhs ← match binaryOp? (← peekKind) with
        | some (next, _) => if level < next then call (.operators level operand) else pure operand
        | none => pure operand
      call (.operators bound (.binary (untyped lhs.span) op lhs rhs))
  | .expression => do
    let lhs ← call .unary
    let cond ← call (.operators 0 lhs)
    if !(← check .question) then return cond
    let _ ← advance
    let yes ← call .expression
    let _ ← expect .colon
    let no ← call .expression
    return .ternary (untyped cond.span) cond yes no
  | .indexList => do
    let e ← call .expression
    if ← accept .comma then
      let es ← call .indexList
      return e :: es
    return [e]
  | .arguments => do
    let _ ← expect .leftParen
    let args ← call .argumentList
    let _ ← expect .rightParen
    return args
  | .argumentList => do
    if (← check .rightParen) || (← check .endOfFile) then return []
    let e ← call .expression
    if ← accept .comma then
      let es ← call .argumentList
      return e :: es
    return [e]
  | .dottedRest name => do
    if (← check .dot) && (← peekSecond) = .identifier then
      let _ ← advance
      let part ← advance
      call (.dottedRest (name ++ "." ++ part.lexeme))
    else return name
  | .attributeGroup seen => do
    let name ← expect .identifier
    if !attributeNames.elem name.lexeme then throw (.unknownAttribute name)
    if seen.any (·.name == name.lexeme) then throw (.duplicateAttribute name)
    let a ← attributeArguments fuel { name := name.lexeme, span := name.span }
    if ← accept .comma then call (.attributeGroup (seen ++ [a]))
    else
      let _ ← expect .rightBracket
      return seen ++ [a]
  | .attributeGroups seen => do
    if ← accept .leftBracket then
      let all ← call (.attributeGroup seen)
      call (.attributeGroups all)
    else return seen
  | .importItems item => do
    let named ← if ← accept .kwAs then do
        let tok ← expect .identifier
        pure { item with rename := tok.lexeme }
      else pure item
    if ← accept .comma then
      let tok ← expect .identifier
      let items ← call (.importItems { span := tok.span, name := tok.lexeme })
      return named :: items
    return [named]
  | .structMembers => do
    if (← check .rightBrace) || (← check .endOfFile) then return []
    let m ← structMember fuel
    if ← accept .comma then
      let ms ← call .structMembers
      return m :: ms
    return [m]
  | .externalVars => do
    if (← check .rightBrace) || (← check .endOfFile) then return []
    let v ← externalVar fuel
    if ← accept .comma then
      let vs ← call .externalVars
      return v :: vs
    return [v]
  | .parameters => do
    if (← check .rightParen) || (← check .endOfFile) then return []
    let name ← expect .identifier
    let _ ← expect .colon
    let type ← typeExpression fuel
    let p : FnParam := { span := name.span, name := name.lexeme, type }
    if ← accept .comma then
      let ps ← call .parameters
      return p :: ps
    return [p]
  | .block => do
    let _ ← expect .leftBrace
    let stmts ← call .statements
    let _ ← expect .rightBrace
    return stmts
  | .statements => do
    if (← check .rightBrace) || (← check .endOfFile) then return []
    let s ← call .statement
    let ss ← call .statements
    return s :: ss
  | .statement => do
    let unroll ← statementAttributes fuel
    let tok ← peek
    match tok.kind with
    | .leftBrace =>
      let stmts ← call .block
      return .scoped tok.span (.multi tok.span stmts)
    | .kwLet => letStmt fuel
    | .kwConst =>
      if (← peekSecond) = .kwIf then
        let _ ← advance
        call (.branches true tok.span [])
      else constDecl fuel []
    | .kwIf => call (.branches false tok.span [])
    | .kwWhile =>
      let start ← advance
      let cond ← parenExpression fuel
      let stmt ← call .statement
      return .loop start.span cond unroll stmt
    | .kwFor => call (.forStmt unroll)
    | .kwReturn => returnStmt fuel
    | .kwBreak =>
      let _ ← advance
      let _ ← expect .semicolon
      return .breakLoop tok.span
    | .kwContinue =>
      let _ ← advance
      let _ ← expect .semicolon
      return .continueLoop tok.span
    | .kwDiscard =>
      let _ ← advance
      let _ ← expect .semicolon
      return .discard tok.span
    | .semicolon =>
      let _ ← advance
      return .noOp tok.span
    | _ => expressionStmt fuel
  | .branches isConst start arms => do
    let _ ← expect .kwIf
    let cond ← parenExpression fuel
    let stmt ← call .statement
    let arms := arms ++ [(cond, stmt)]
    if !(← accept .kwElse) then return .branch start isConst arms .absent
    if ← check .kwIf then call (.branches isConst start arms)
    else
      let other ← call .statement
      return .branch start isConst arms other
  | .forStmt unroll => do
    let start ← advance
    let name ← expect .identifier
    let _ ← expect .kwIn
    let e ← call .expression
    if !(← accept .arrow) then
      let stmt ← call .statement
      return .forEach start.span { name := name.lexeme, array := e, unroll } stmt
    let stop ← call .expression
    let step ← if ← accept .colon then call .expression else pure .absent
    let stmt ← call .statement
    return .forRange start.span { name := name.lexeme, start := e, stop, step, unroll } stmt
  | .declarations => do
    if ← check .endOfFile then return []
    let d ← declaration fuel
    let ds ← call .declarations
    return d :: ds

/-- With a greater bound, a rule takes what it needs from all rules with the smaller one. -/
theorem runs_succ (fuel : Nat) (r : Rule α) : runs (fuel + 1) r = body fuel (runs fuel) r := by cases r <;> rfl

end Rule

end Shading.Parser
