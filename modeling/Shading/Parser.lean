import Shading.Module
import Shading.Parser.Statement
import Shading.Token.Lexer

/-! Modules from tokens and from source texts. -/
namespace Shading.Parser

/-- A language version such as `1.0`, as a hundred times the major number plus the minor one. -/
def languageVersion? (t : Text) : Option UInt32 := do
  let major := t.takeWhile (· ≠ Text.byte '.')
  let minor : Text := match t.dropWhile (· ≠ Text.byte '.') with
    | [] => "0"
    | _ :: rest => rest
  let a ← Text.toNat? major
  let b ← Text.toNat? minor
  guard (a < UInt16.size && b < 100)
  return (a * 100 + b).toUInt32

/-- Takes an attribute of the module's head up into its metadata. -/
def headAttribute (m : Metadata) (a : Attribute) : Except ParseError Metadata :=
  if a.name == Text.ofString "nzsl_version" then do
    let s ← a.stringArg
    match languageVersion? s with
    | some v => return { m with version := v }
    | none => throw (.languageVersion s a.span)
  else if a.name == Text.ofString "author" then do return { m with author := ← a.stringArg }
  else if a.name == Text.ofString "desc" then do return { m with description := ← a.stringArg }
  else if a.name == Text.ofString "license" then do return { m with license := ← a.stringArg }
  else .error (.notApplicable a.name a.span "module")

def moduleHead (fuel : Nat) : Parser Metadata := do
  let attrs ← attributes fuel
  let _ ← expect .kwModule
  let name ← if ← check .identifier then dottedName fuel else pure []
  let _ ← expect .semicolon
  attrs.foldlM (m := Except ParseError) headAttribute { name }

/-- A declaration at the top level, under its condition if it has one. -/
def declaration (fuel : Nat) : Parser Stmt := do
  let attrs ← attributes fuel
  let (condAttr, attrs) := Attribute.take attrs "cond"
  let cond ← Attribute.optionalArg condAttr
  let tok ← peek
  let s ← match tok.kind with
    | .kwImport => importDecl fuel attrs
    | .kwOption => optionDecl fuel attrs
    | .kwConst => constDecl fuel attrs
    | .kwAlias => aliasDecl fuel attrs
    | .kwStruct => structDecl fuel attrs
    | .kwExternal => externalDecl fuel attrs
    | .kwFn => functionDecl fuel attrs
    | _ => throw (.noDeclaration tok)
  return if cond.isPresent then .conditional s.span cond s else s

def declarations : Nat → Parser (List Stmt)
  | 0 => throw .exhausted
  | fuel + 1 => do
    if ← check .endOfFile then return []
    let d ← declaration fuel
    let ds ← declarations fuel
    return d :: ds

/-- The module that a declaration imports, also under a condition. -/
def importedName? : Stmt → Option Text
  | .importFrom _ name _ => some name
  | .conditional _ _ s => importedName? s
  | _ => none

def moduleOf (fuel : Nat) : Parser Module := do
  let metadata ← moduleHead fuel
  let place ← peek
  let body ← declarations fuel
  return { metadata := some { metadata with imports := body.filterMap importedName? }
           root := some ⟨place.span, body⟩ }

/-- A bound on the depth of the recursion: no more than eight calls are open for each token. -/
def fuelFor (ts : List Token) : Nat := 8 * ts.length + 16

end Shading.Parser

namespace Shading.Module

/-- The module that a list of tokens spells. -/
def ofTokens (ts : List Token) : Except Diagnostic Module :=
  match (Parser.moduleOf (Parser.fuelFor ts)).run' ts with
  | .ok m => .ok m
  | .error e => .error e.toDiagnostic

/-- The module that a source text spells. -/
def parse (source : Text) : Except Diagnostic Module := do
  let ts ← tokenize [] source
  ofTokens ts

end Shading.Module
