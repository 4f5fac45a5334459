import Shading.Parser.Expression
import Shading.Stmt

/-! Declarations from tokens, apart from functions, and the attribute lists in front of them. -/
namespace Shading.Parser

/-- An attribute before the declaration has looked at it. -/
structure Attribute where
  name : Text
  span : Span
  args : List Expr := []
  /-- the argument if it is a string -/
  string : Option Text := none

/-- The names of all attributes. Which of them fit a declaration is up to the declaration. -/
def attributeNames : List Text :=
  ["author", "binding", "builtin", "cond", "depth_write", "desc", "early_fragment_tests", "entry",
   "export", "layout", "license", "location", "nzsl_version", "set", "unroll", "workgroup"]

/-- The arguments of an attribute: a string, or expressions. -/
def attributeArguments (fuel : Nat) (a : Attribute) : Parser Attribute := do
  if !(← accept .leftParen) then return a
  let given ← if ← check .stringLiteral then do
      let tok ← advance
      match Literal.string tok.lexeme with
      | .ok s => pure { a with string := some s }
      | .error e => throw (.stringLiteral tok e)
    else do
      let args ← argumentList fuel
      pure { a with args := args }
  let _ ← expect .rightParen
  if given.string.isNone && given.args.isEmpty then throw (.emptyArguments a.name a.span)
  return given

/-- The attributes of one pair of brackets, after those that were read before. -/
def attributeGroup (seen : List Attribute) : Nat → Parser (List Attribute)
  | 0 => throw .exhausted
  | fuel + 1 => do
    let name ← expect .identifier
    if !attributeNames.elem name.lexeme then throw (.unknownAttribute name)
    if seen.any (·.name == name.lexeme) then throw (.duplicateAttribute name)
    let a ← attributeArguments fuel { name := name.lexeme, span := name.span }
    if ← accept .comma then attributeGroup (seen ++ [a]) fuel
    else
      let _ ← expect .rightBracket
      return seen ++ [a]

def attributeGroups (seen : List Attribute) : Nat → Parser (List Attribute)
  | 0 => throw .exhausted
  | fuel + 1 => do
    if ← accept .leftBracket then
      let all ← attributeGroup seen fuel
      attributeGroups all fuel
    else return seen

/-- All attributes in front of a declaration, in order. -/
def attributes (fuel : Nat) : Parser (List Attribute) := attributeGroups [] fuel

namespace Attribute

/-- The attribute of a name, and the others. -/
def take (as : List Attribute) (name : Text) : Option Attribute × List Attribute :=
  (as.find? (·.name == name), as.filter (·.name != name))

/-- Fails if there are attributes that the declaration does not take. -/
def rejectAll (as : List Attribute) (what : Text) : Except ParseError Unit :=
  match as with
  | [] => .ok ()
  | a :: _ => .error (.notApplicable a.name a.span what)

def stringArg (a : Attribute) : Except ParseError Text :=
  match a.string with
  | some s => .ok s
  | none => .error (.stringArgument a.name a.span)

def exprArg (a : Attribute) : Except ParseError Expr :=
  match a.string, a.args with
  | none, [e] => .ok e
  | _, _ => .error (.oneArgument a.name a.span a.args.length)

/-- The argument of an attribute that may be missing altogether. -/
def optionalArg (a : Option Attribute) : Except ParseError Expr :=
  match a with
  | none => .ok .absent
  | some a => a.exprArg

/-- An attribute that is set by its name alone. -/
def flag (a : Option Attribute) : Except ParseError (Attr Bool) :=
  match a with
  | none => .ok {}
  | some a =>
    if a.string.isNone && a.args.isEmpty then .ok (Attr.known true)
    else do return { expr := ← a.exprArg }

end Attribute

/-- The items of an import after the first one, each with the name that it gets. -/
def importItems (item : ImportItem) : Nat → Parser (List ImportItem)
  | 0 => throw .exhausted
  | fuel + 1 => do
    let named ← if ← accept .kwAs then do
        let tok ← expect .identifier
        pure { item with rename := tok.lexeme }
      else pure item
    if ← accept .comma then
      let tok ← expect .identifier
      let items ← importItems { span := tok.span, name := tok.lexeme } fuel
      return named :: items
    return [named]

def importDecl (fuel : Nat) (attrs : List Attribute) : Parser Stmt := do
  Attribute.rejectAll attrs "import"
  let start ← advance
  let place ← peek
  let first ← dottedName fuel
  if ← accept .semicolon then return .importFrom start.span first []
  if first.elem (Text.byte '.') then throw (.dottedSymbol first start.span)
  let items ← importItems { span := place.span, name := first } fuel
  let _ ← expect .kwFrom
  let name ← dottedName fuel
  let _ ← expect .semicolon
  return .importFrom start.span name items

def optionDecl (fuel : Nat) (attrs : List Attribute) : Parser Stmt := do
  Attribute.rejectAll attrs "option"
  let start ← advance
  let name ← expect .identifier
  let _ ← expect .colon
  let type ← typeExpression fuel
  let default ← if ← accept .equal then expression fuel else pure .absent
  let _ ← expect .semicolon
  return .option start.span { name := name.lexeme, type, default }

def constDecl (fuel : Nat) (attrs : List Attribute) : Parser Stmt := do
  let (exportAttr, attrs) := Attribute.take attrs "export"
  let exported ← Attribute.flag exportAttr
  Attribute.rejectAll attrs "const"
  let start ← advance
  let name ← expect .identifier
  let type ← if ← accept .colon then typeExpression fuel else pure .absent
  let _ ← expect .equal
  let value ← expression fuel
  let _ ← expect .semicolon
  return .const start.span { name := name.lexeme, type, value, exported }

def aliasDecl (fuel : Nat) (attrs : List Attribute) : Parser Stmt := do
  let (exportAttr, attrs) := Attribute.take attrs "export"
  let exported ← Attribute.flag exportAttr
  Attribute.rejectAll attrs "alias"
  let start ← advance
  let name ← expect .identifier
  let _ ← expect .equal
  let target ← typeExpression fuel
  let _ ← expect .semicolon
  return .alias start.span { name := name.lexeme, target, exported }

def structMember (fuel : Nat) : Parser StructMember := do
  let attrs ← attributes fuel
  let (builtinAttr, attrs) := Attribute.take attrs "builtin"
  let builtin ← Attribute.optionalArg builtinAttr
  let (locationAttr, attrs) := Attribute.take attrs "location"
  let location ← Attribute.optionalArg locationAttr
  let (condAttr, attrs) := Attribute.take attrs "cond"
  let cond ← Attribute.optionalArg condAttr
  Attribute.rejectAll attrs "struct member"
  let name ← expect .identifier
  let _ ← expect .colon
  let type ← typeExpression fuel
  return { span := name.span, name := name.lexeme, type, builtin := { expr := builtin },
           location := { expr := location }, cond }

/-- Members with commas between them; a comma may follow the last one. -/
def structMembers : Nat → Parser (List StructMember)
  | 0 => throw .exhausted
  | fuel + 1 => do
    if (← check .rightBrace) || (← check .endOfFile) then return []
    let m ← structMember fuel
    if ← accept .comma then
      let ms ← structMembers fuel
      return m :: ms
    return [m]

def structDecl (fuel : Nat) (attrs : List Attribute) : Parser Stmt := do
  let (exportAttr, attrs) := Attribute.take attrs "export"
  let exported ← Attribute.flag exportAttr
  let (layoutAttr, attrs) := Attribute.take attrs "layout"
  let layout ← Attribute.optionalArg layoutAttr
  Attribute.rejectAll attrs "struct"
  let start ← advance
  let name ← expect .identifier
  let _ ← expect .leftBrace
  let members ← structMembers fuel
  let _ ← expect .rightBrace
  if members.isEmpty then throw (.emptyStruct name.lexeme start.span)
  return .struct start.span { name := name.lexeme, layout := { expr := layout }, members, exported }

def externalVar (fuel : Nat) : Parser External := do
  let attrs ← attributes fuel
  let (setAttr, attrs) := Attribute.take attrs "set"
  let set ← Attribute.optionalArg setAttr
  let (bindingAttr, attrs) := Attribute.take attrs "binding"
  let binding ← Attribute.optionalArg bindingAttr
  Attribute.rejectAll attrs "external variable"
  let name ← expect .identifier
  let _ ← expect .colon
  let type ← typeExpression fuel
  return { span := name.span, name := name.lexeme, type, set := { expr := set },
           binding := { expr := binding } }

def externalVars : Nat → Parser (List External)
  | 0 => throw .exhausted
  | fuel + 1 => do
    if (← check .rightBrace) || (← check .endOfFile) then return []
    let v ← externalVar fuel
    if ← accept .comma then
      let vs ← externalVars fuel
      return v :: vs
    return [v]

def externalDecl (fuel : Nat) (attrs : List Attribute) : Parser Stmt := do
  let (setAttr, attrs) := Attribute.take attrs "set"
  let set ← Attribute.optionalArg setAttr
  Attribute.rejectAll attrs "external block"
  let start ← advance
  let _ ← expect .leftBrace
  let vars ← externalVars fuel
  let _ ← expect .rightBrace
  return .external start.span { expr := set } vars

end Shading.Parser
