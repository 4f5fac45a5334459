import Shading.Expr
import Shading.Parser.Stream

/-! Expressions from tokens. The recursion is bounded by a number that the length of the input makes
large enough. -/
namespace Shading.Parser

/-- How tightly a binary operator binds, with the operator. -/
def binaryOp? : TokenKind → Option (Nat × BinaryOp)
  | .pipePipe => some (1, .or)
  | .ampAmp => some (2, .and)
  | .pipe => some (3, .bitOr)
  | .caret => some (4, .bitXor)
  | .ampersand => some (5, .bitAnd)
  | .equalEqual => some (6, .eq)
  | .bangEqual => some (6, .ne)
  | .less => some (7, .lt)
  | .lessEqual => some (7, .le)
  | .greater => some (7, .gt)
  | .greaterEqual => some (7, .ge)
  | .lessLess => some (8, .shiftLeft)
  | .greaterGreater => some (8, .shiftRight)
  | .plus => some (9, .add)
  | .minus => some (9, .sub)
  | .star => some (10, .mul)
  | .slash => some (10, .div)
  | .percent => some (10, .mod)
  | _ => none

def unaryOp? : TokenKind → Option UnaryOp
  | .minus => some .minus
  | .plus => some .plus
  | .bang => some .not
  | .tilde => some .bitNot
  | _ => none

/-- The names that may be followed by a type in angle brackets. -/
def genericNames : List Text :=
  ["vec2", "vec3", "vec4", "mat2", "mat3", "mat4",
   "mat2x2", "mat2x3", "mat2x4", "mat3x2", "mat3x3", "mat3x4", "mat4x2", "mat4x3", "mat4x4"]

/-- Indexes an expression; indices of an index are gathered in one node. -/
def indexed (base : Expr) (indices : List Expr) : Expr :=
  match base with
  | .index info b is => .index info b (is ++ indices)
  | e => .index ⟨e.span, .unknown⟩ e indices

/-- Selects a member; members of a member are gathered in one node. -/
def selected (base : Expr) (name : Name) : Expr :=
  match base with
  | .member info b ns => .member info b (ns ++ [name])
  | e => .member ⟨e.span, .unknown⟩ e [name]

/-- The information of an expression whose type is not known yet. -/
def untyped (span : Span) : ExprInfo := ⟨span, .unknown⟩

mutual

/-- An expression: binary operators over operands, and the choice between two values. -/
def expression : Nat → Parser Expr
  | 0 => throw .exhausted
  | fuel + 1 => do
    let lhs ← unary fuel
    let cond ← operators fuel 0 lhs
    if !(← check .question) then return cond
    let _ ← advance
    let yes ← expression fuel
    let _ ← expect .colon
    let no ← expression fuel
    return .ternary (untyped cond.span) cond yes no

/-- Operators that bind tighter than a bound, folded into the operand on their left. -/
def operators : Nat → Nat → Expr → Parser Expr
  | 0, _, _ => throw .exhausted
  | fuel + 1, bound, lhs => do
    match binaryOp? (← peekKind) with
    | none => return lhs
    | some (level, op) =>
      if level ≤ bound then return lhs
      let _ ← advance
      let operand ← unary fuel
      let rhs ← match binaryOp? (← peekKind) with
        | some (next, _) => if level < next then operators fuel level operand else pure operand
        | none => pure operand
      operators fuel bound (.binary (untyped lhs.span) op lhs rhs)

def unary : Nat → Parser Expr
  | 0 => throw .exhausted
  | fuel + 1 => do
    match unaryOp? (← peekKind) with
    | none => postfixed fuel
    | some op =>
      let tok ← advance
      let operand ← unary fuel
      return .unary (untyped tok.span) op operand

/-- An operand with its calls, indices and members. Types are written like this too. -/
def postfixed : Nat → Parser Expr
  | 0 => throw .exhausted
  | fuel + 1 => do
    let e ← primary fuel
    postfixes fuel e

def postfixes : Nat → Expr → Parser Expr
  | 0, _ => throw .exhausted
  | fuel + 1, e => do
    if ← check .leftParen then
      let args ← arguments fuel
      postfixes fuel (.call (untyped e.span) e args)
    else if ← accept .leftBracket then
      let indices ← indexList fuel
      let _ ← expect .rightBracket
      postfixes fuel (indexed e indices)
    else if ← accept .dot then
      let name ← expect .identifier
      if ← check .leftParen then
        let args ← arguments fuel
        postfixes fuel (.method (untyped e.span) e name.lexeme args)
      else postfixes fuel (selected e ⟨name.lexeme, name.span⟩)
    else return e

/-- One or more expressions with commas between them. -/
def indexList : Nat → Parser (List Expr)
  | 0 => throw .exhausted
  | fuel + 1 => do
    let e ← expression fuel
    if ← accept .comma then
      let es ← indexList fuel
      return e :: es
    return [e]

/-- Expressions in parentheses; a comma may follow the last one. -/
def arguments : Nat → Parser (List Expr)
  | 0 => throw .exhausted
  | fuel + 1 => do
    let _ ← expect .leftParen
    let args ← argumentList fuel
    let _ ← expect .rightParen
    return args

def argumentList : Nat → Parser (List Expr)
  | 0 => throw .exhausted
  | fuel + 1 => do
    if (← check .rightParen) || (← check .endOfFile) then return []
    let e ← expression fuel
    if ← accept .comma then
      let es ← argumentList fuel
      return e :: es
    return [e]

def primary : Nat → Parser Expr
  | 0 => throw .exhausted
  | fuel + 1 => do
    let tok ← peek
    match tok.kind with
    | .intLiteral =>
      let _ ← advance
      match Literal.int tok.lexeme with
      | .ok v => return .literal (untyped tok.span) v
      | .error e => throw (.intLiteral tok e)
    | .floatLiteral =>
      let _ ← advance
      match Literal.float? tok.lexeme with
      | some v => return .literal (untyped tok.span) v
      | none => throw (.floatLiteral tok)
    | .kwTrue =>
      let _ ← advance
      return .literal (untyped tok.span) (.bool true)
    | .kwFalse =>
      let _ ← advance
      return .literal (untyped tok.span) (.bool false)
    | .identifier =>
      let _ ← advance
      let name := Expr.name (untyped tok.span) tok.lexeme
      if (← check .less) && genericNames.elem tok.lexeme then
        let _ ← advance
        let arg ← postfixed fuel
        let _ ← expect .greater
        return .index (untyped tok.span) name [arg]
      return name
    | .leftParen =>
      let _ ← advance
      let e ← expression fuel
      let _ ← expect .rightParen
      return e
    | _ => throw (.noExpression tok)

end

/-- A type. Types share the grammar of operands: `vec3[f32]` is an index into a name. -/
def typeExpression (fuel : Nat) : Parser Expr := postfixed fuel

end Shading.Parser
