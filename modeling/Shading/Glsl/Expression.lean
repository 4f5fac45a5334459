import Shading.Glsl.Code

/-! Expressions in GLSL. -/
namespace Shading.Glsl

/-- The function of the language that a built-in function is, if it is one. -/
def intrinsicName? : Intrinsic → Option Text
  | .lerp => some "mix"
  | .sample | .size | .reserved .. => none
  | f => some f.text

def operatorText? : BinaryOp → Option Text
  | .reserved .. => none
  | op => some op.text

/-- Encloses what an access behind it would bind to wrongly. -/
def postfixed (t : Text) : Text :=
  if (t.head?.any (Text.ofString "-!~").contains) then "(" ++ t ++ ")" else t

/-- May an expression be written several times? -/
def isTrivial : Expr → Bool
  | .var .. | .const .. | .literal .. => true
  | _ => false

/-- The name of a result that is computed before the statement. -/
def cacheResult (t : Ty) (value : Text) : Glsl Text := do
  let name ← freshName "cachedResult"
  let decl ← formedHere (← declaration t name)
  modify fun s => { s with pending := s.pending ++ [decl ++ " = " ++ value ++ ";"] }
  return name

/-- A binary operation. The remainder of floats is a function. -/
def binary (op : BinaryOp) (leftType : Ty) (l r : Text) (span : Span) : Glsl Text := do
  if op == .mod && leftType.scalar?.any (·.isFloat) then return "mod(" ++ l ++ ", " ++ r ++ ")"
  match operatorText? op with
  | some symbol => return "(" ++ l ++ " " ++ symbol ++ " " ++ r ++ ")"
  | none => fail span (.binaryOperator op)

def unary (op : UnaryOp) (e : Text) (span : Span) : Glsl Text :=
  match op with
  | .plus => return e
  | .minus | .not | .bitNot => return op.text ++ "(" ++ e ++ ")"
  | .reserved .. => fail span (.unaryOperator op)

/-- An assignment. Compound ones that the language does not have are written out. -/
def assignment (op : AssignOp) (target : Ty) (l r : Text) (span : Span) : Glsl Text := do
  match op.binary? with
  | none => return l ++ " = " ++ r
  | some b =>
    if b.isLogical || (b == .mod && target.scalar?.any (·.isFloat)) then
      return l ++ " = " ++ (← binary b target l r span)
    return l ++ " " ++ b.text ++ "= " ++ r

/-- A selection of components, or a scalar repeated. -/
def swizzled (i : ExprInfo) (source : Expr) (base : Text) (s : Selector) : Glsl Text := do
  if source.type.isVector then return postfixed base ++ "." ++ Swizzle.text s.components
  if s.count = 1 then return base
  let base ← if isTrivial source then pure base else cacheResult source.type base
  let name ← formed i.span .form (← typeName i.type)
  return name ++ "(" ++ Text.join ", " (List.replicate s.count.toNat base) ++ ")"

/-- A call of a built-in function. Only fragment shaders choose the level of detail by themselves. -/
def intrinsicCall (span : Span) (f : Intrinsic) (args : List Text) : Glsl Text := do
  match f, args with
  | .sample, s :: c :: _ =>
    if (← read).settings.stage == .fragment then return "texture(" ++ s ++ ", " ++ c ++ ")"
    return "textureLod(" ++ s ++ ", " ++ c ++ ", 0.0)"
  | .size, a :: _ => return "uint(" ++ postfixed a ++ ".length())"
  | _, _ =>
    match intrinsicName? f with
    | some name => return name ++ "(" ++ Text.join ", " args ++ ")"
    | none => fail span (.intrinsic f)

mutual

/-- The text of an expression. -/
def expression : Expr → Glsl Text
  | .literal _ v => literal v
  | .const i id => do
    match (← get).constants.lookup id with
    | some name => return name
    | none =>
      match (← read).source.constants.get? id with
      | some v => literal v
      | none => fail i.span (.constantWithoutValue ("#" ++ Text.ofInt id))
  | .var i id => do
    match (← get).vars.lookup id with
    | some name => return name
    | none => fail i.span (.unavailableVariable id)
  | .index i base indices => do
    let b ← expression base
    let path ← accesses i.span base.type indices
    return postfixed b ++ path
  | .swizzle i base s => do
    let b ← expression base
    swizzled i base b s
  | .binary i op l r => do
    let a ← expression l
    let b ← expression r
    binary op l.type a b i.span
  | .unary i op e => do
    let a ← expression e
    unary op a i.span
  | .assign i op l r => do
    let b ← expression r
    let a ← expression l
    return "(" ++ (← assignment op l.type a b i.span) ++ ")"
  | .cast i _ args => do
    let args ← expressions args
    let name ← formed i.span .form (← typeName i.type)
    return name ++ "(" ++ Text.join ", " args ++ ")"
  | .ternary _ c t f => do
    let c ← expression c
    let t ← expression t
    let f ← expression f
    return "(" ++ c ++ " ? " ++ t ++ " : " ++ f ++ ")"
  | .call i (.function _ id) args => do
    match (← get).functions.lookup id with
    | none => fail i.span (.unavailableFunction id)
    | some name => return name ++ "(" ++ Text.join ", " (← expressions args) ++ ")"
  | .call i target _ => fail i.span (.callTarget target.form)
  | .intrinsic i f args => do
    let args ← expressions args
    intrinsicCall i.span f args
  | e => fail e.span (.expression e.form)

def expressions : List Expr → Glsl (List Text)
  | [] => return []
  | e :: es => do
    let t ← expression e
    return t :: (← expressions es)

/-- The accesses behind a value of a type, one index after the other. -/
def accesses (span : Span) (t : Ty) : List Expr → Glsl Text
  | [] => return []
  | e :: es => do
    match t.container? with
    | some r =>
      let (_, name, member) ← (← read).source.constants.memberOf r e
      return "." ++ escape name ++ (← accesses span member es)
    | none =>
      let index ← expression e
      let rest ← match t with
        | .array elem _ => accesses span elem es
        | .vector _ p => accesses span (.prim p) es
        | .matrix _ rows p => accesses span (.vector rows p) es
        | _ => fail span (.indexTarget t)
      return "[" ++ index ++ "]" ++ rest

end

/-- The text of an expression that is a statement. -/
def effect : Expr → Glsl Text
  | .assign i op l r => do
    let b ← expression r
    let a ← expression l
    assignment op l.type a b i.span
  | e => expression e

/-- How deep inside parentheses each position of a text is, up to the last but one. -/
def enclosed (depth : Nat) : Text → Bool
  | [] | [_] => true
  | b :: rest =>
    let depth := if b = Text.byte '(' then depth + 1 else if b = Text.byte ')' then depth - 1 else depth
    depth != 0 && enclosed depth rest

/-- Removes one pair of parentheses around all of a text. -/
def stripParens (t : Text) : Text :=
  if 2 ≤ t.length && t.head? == some (Text.byte '(') && t.getLast? == some (Text.byte ')') && enclosed 0 t
  then (t.drop 1).dropLast else t

/-- The condition of a branch or a loop. -/
def condition (e : Expr) : Glsl Text := return stripParens (← expression e)

end Shading.Glsl
