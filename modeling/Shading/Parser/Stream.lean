import Shading.Diagnostic
import Shading.Literal
import Shading.Token

/-! Reading tokens one after the other. -/
namespace Shading

/-- Why a list of tokens is no module. -/
inductive ParseError
  | expected (kind : TokenKind) (got : Token)
  | noExpression (got : Token)
  | noDeclaration (got : Token)
  | unknownAttribute (name : Token)
  | duplicateAttribute (name : Token)
  | stringLiteral (got : Token) (e : Literal.StringError)
  | emptyArguments (attr : Text) (span : Span)
  | notApplicable (attr : Text) (span : Span) (what : Text)
  | stringArgument (attr : Text) (span : Span)
  | oneArgument (attr : Text) (span : Span) (count : Nat)
  | languageVersion (version : Text) (span : Span)
  | dottedSymbol (name : Text) (span : Span)
  | intLiteral (got : Token) (e : Literal.IntError)
  | floatLiteral (got : Token)
  | emptyStruct (name : Text) (span : Span)
  | workgroupSizes (count : Nat) (span : Span)
  | unrollTarget (found : TokenKind) (span : Span)
  | untypedVariable (name : Text) (got : Token)
  | exhausted
deriving Repr

namespace ParseError

/-- A token as it is named in messages. -/
def describe (t : Token) : Text :=
  if t.kind = .endOfFile || t.lexeme.isEmpty then t.kind.text
  else t.kind.text ++ " " ++ Quoted.text t.lexeme

def parsing (t : Token) (reason : Text) : Text :=
  "strconv.parse: parsing " ++ Quoted.text t.lexeme ++ ": " ++ reason

def toDiagnostic : ParseError → Diagnostic
  | .expected kind got =>
    ⟨.grammatical, got.span, "expected " ++ kind.text ++ ", got " ++ describe got, kind.text,
      got.kind.text⟩
  | .noExpression got =>
    ⟨.grammatical, got.span, "unexpected " ++ describe got ++ " in expression", "expression",
      got.kind.text⟩
  | .noDeclaration got =>
    ⟨.grammatical, got.span, "unexpected token " ++ got.kind.text ++ ", expected declaration",
      "declaration", got.kind.text⟩
  | .unknownAttribute name =>
    ⟨.grammatical, name.span, "unknown attribute " ++ Quoted.text name.lexeme, "attribute", name.lexeme⟩
  | .duplicateAttribute name =>
    ⟨.grammatical, name.span, "duplicate attribute " ++ Quoted.text name.lexeme, "attribute", name.lexeme⟩
  | .stringLiteral got e =>
    ⟨.grammatical, got.span, "malformed string literal: " ++ e.message, "string literal", got.lexeme⟩
  | .emptyArguments attr span =>
    ⟨.grammatical, span, "attribute " ++ Quoted.text attr ++ " has empty argument list",
      "attribute argument", ")"⟩
  | .notApplicable attr span what =>
    ⟨.grammatical, span, "attribute " ++ Quoted.text attr ++ " is not valid on " ++ what, [], attr⟩
  | .stringArgument attr span =>
    ⟨.grammatical, span, "attribute " ++ Quoted.text attr ++ " expects a string argument",
      "string literal", []⟩
  | .oneArgument attr span count =>
    ⟨.grammatical, span, "attribute " ++ Quoted.text attr ++ " expects exactly one argument",
      "1 argument", Text.ofNat count ++ " arguments"⟩
  | .languageVersion version span =>
    ⟨.grammatical, span, "malformed language version " ++ Quoted.text version, "version string", version⟩
  | .dottedSymbol name span =>
    ⟨.grammatical, span, "imported symbol " ++ Quoted.text name ++ " cannot be a dotted name",
      "identifier", name⟩
  | .intLiteral got .malformed =>
    ⟨.grammatical, got.span, parsing got "invalid syntax", "integer literal", got.lexeme⟩
  | .intLiteral got .range =>
    ⟨.grammatical, got.span, parsing got "value out of range", "integer literal", got.lexeme⟩
  | .floatLiteral got =>
    ⟨.grammatical, got.span, "malformed float literal " ++ got.lexeme, "float literal", got.lexeme⟩
  | .emptyStruct name span =>
    ⟨.grammatical, span, "struct " ++ name ++ " has no members", "struct member", "\x7d"⟩
  | .workgroupSizes count span =>
    ⟨.grammatical, span, "workgroup expects 1 to 3 sizes", "1 to 3 arguments", Text.ofNat count⟩
  | .unrollTarget found span =>
    ⟨.grammatical, span, "unroll attribute only applies to loops", "loop", found.text⟩
  | .untypedVariable name got =>
    ⟨.grammatical, got.span, "variable " ++ name ++ " needs a type or an initial value",
      "type or initializer", got.kind.text⟩
  | .exhausted => ⟨.grammatical, {}, "nesting too deep", [], []⟩

end ParseError

/-- A step that reads from a list of tokens. The list goes on for ever with ends of the file, and an end
of the file is never passed. -/
abbrev Parser := StateT (List Token) (Except ParseError)

namespace Parser

/-- The token that follows a list of tokens. -/
def headToken : List Token → Token
  | t :: _ => t
  | [] => {}

def peek : Parser Token := fun ts => .ok (headToken ts, ts)

/-- The kind of the next token. -/
def peekKind : Parser TokenKind := fun ts => .ok ((headToken ts).kind, ts)

/-- The kind of the token after the next one. -/
def peekSecond : Parser TokenKind := fun ts => .ok ((headToken (ts.drop 1)).kind, ts)

/-- Is the next token of a kind? -/
def check (kind : TokenKind) : Parser Bool := fun ts => .ok ((headToken ts).kind == kind, ts)

/-- Passes the next token, unless it is the end of the file. -/
def advance : Parser Token := fun
  | t :: ts => .ok (t, if t.kind = .endOfFile then t :: ts else ts)
  | [] => .ok ({}, [])

/-- Passes the next token if it is of a kind. -/
def accept (kind : TokenKind) : Parser Bool := do
  if ← check kind then
    let _ ← advance
    return true
  return false

/-- Passes the next token, which has to be of a kind. -/
def expect (kind : TokenKind) : Parser Token := do
  if ← check kind then advance
  else throw (.expected kind (← peek))

/-- Names joined by points. -/
def dottedRest (name : Text) : Nat → Parser Text
  | 0 => throw .exhausted
  | fuel + 1 => do
    if (← check .dot) && (← peekSecond) = .identifier then
      let _ ← advance
      let part ← advance
      dottedRest (name ++ "." ++ part.lexeme) fuel
    else return name

def dottedName (fuel : Nat) : Parser Text := do
  let first ← expect .identifier
  dottedRest first.lexeme fuel

end Parser

end Shading
