import Shading.Diagnostic
import Shading.Text.Letter
import Shading.Text.Quoted
import Shading.Token

/-! The tokens of a source text. A step of the scanner says how many runes it takes and what they are;
places are worked out from the runes taken. -/
namespace Shading

/-- Why a source text has no tokens. -/
inductive LexError
  | unexpected (c : Char)
  | openComment
  | openString
  | hexadecimal
  | exponent
  | suffix
deriving DecidableEq, Repr

namespace LexError

def message : LexError → Text
  | .unexpected c => "unexpected character " ++ Quoted.char c
  | .openComment => "unterminated block comment"
  | .openString => "unterminated string"
  | .hexadecimal => "malformed hexadecimal literal"
  | .exponent => "malformed exponent"
  | .suffix => "invalid suffix on number literal"

def toDiagnostic (e : LexError) (span : Span) : Diagnostic := ⟨.lexical, span, e.message, [], []⟩

end LexError

namespace Position

/-- The place after some runes of one line. -/
def after (p : Position) (rs : List Rune) : Position :=
  { p with column := p.column + rs.length, offset := p.offset + (Rune.text rs).length }

/-- The place after one rune, which may end a line. -/
def next (p : Position) (r : Rune) : Position :=
  if r.char = '\n' then ⟨p.line + 1, 1, p.offset + r.width⟩ else p.after [r]

/-- The place after some runes that may hold line ends. -/
def afterLines (p : Position) (rs : List Rune) : Position := rs.foldl next p

end Position

namespace Lexer

/-- What the scanner finds in front of a text, with the number of runes that it takes. -/
inductive Step
  | token (kind : TokenKind) (size : Nat)
  | blank (size : Nat)
  /-- a fault inside a token -/
  | fault (e : LexError) (size : Nat)
  /-- a fault inside a comment -/
  | blankFault (e : LexError) (size : Nat)
deriving DecidableEq, Repr

def isHexDigit (c : Char) : Bool := c.isDigit || ('a' ≤ c && c ≤ 'f') || ('A' ≤ c && c ≤ 'F')

def isWordStart (c : Char) : Bool := Letter.isLetter c || c == '_'

def isWordChar (c : Char) : Bool := isWordStart c || c.isDigit

/-- How many runes in front have a property. -/
def run (p : Char → Bool) (rs : List Rune) : Nat := (rs.takeWhile (fun r => p r.char)).length

/-- Does the text go on with a character that has a property? -/
def ahead (p : Char → Bool) : List Rune → Bool
  | r :: _ => p r.char
  | [] => false

/-- The runes of a block comment up to its end, given how many comments are open. -/
def commentSize (depth : Nat) : List Rune → Option Nat
  | [] => none
  | [_] => none
  | r :: s :: rest =>
    if r.char = '/' && s.char = '*' then (commentSize (depth + 1) rest).map (· + 2)
    else if r.char = '*' && s.char = '/' then
      if depth ≤ 1 then some 2 else (commentSize (depth - 1) rest).map (· + 2)
    else (commentSize depth (s :: rest)).map (· + 1)

/-- The runes of a string up to its end, or up to the place where it has none. A backslash takes the
character after it along. -/
def stringSize : List Rune → Except Nat Nat
  | [] => .error 0
  | [r] => if r.char = '"' then .ok 1 else if r.char = '\n' then .error 0 else .error 1
  | r :: s :: rest =>
    if r.char = '"' then .ok 1
    else if r.char = '\n' then .error 0
    else if r.char = '\\' then shift 2 (stringSize rest)
    else shift 1 (stringSize (s :: rest))
where
  shift (n : Nat) : Except Nat Nat → Except Nat Nat
    | .ok m => .ok (m + n)
    | .error m => .error (m + n)

/-- A number whose first rune is taken already. -/
def number (first : Char) (rs : List Rune) : Step :=
  if first = '0' && ahead (fun c => c = 'x' || c = 'X') rs then
    let digits := rs.drop 1
    if ahead isHexDigit digits then
      let n := run (fun c => isHexDigit c || c = '_') digits
      let unsigned := if ahead (· = 'u') (digits.drop n) then 1 else 0
      .token .intLiteral (2 + n + unsigned)
    else .fault .hexadecimal 2
  else
    let whole := run (fun c => c.isDigit || c = '_') rs
    let rest := rs.drop whole
    -- a point before a letter selects a component
    let pointed := first ≠ '.' && ahead (· = '.') rest && !ahead isWordStart (rest.drop 1)
    let fraction := if pointed then 1 + run Char.isDigit (rest.drop 1) else 0
    let rest := rest.drop fraction
    let size := 1 + whole + fraction
    let scaled := ahead (fun c => c = 'e' || c = 'E') rest
    let mark := if !scaled then 0
      else if ahead (fun c => c = '+' || c = '-') (rest.drop 1) then 2 else 1
    let size := size + mark
    let rest := rest.drop mark
    if scaled && !ahead Char.isDigit rest then .fault .exponent size
    else
      let power := if scaled then run Char.isDigit rest else 0
      let size := size + power
      let rest := rest.drop power
      let isFloat := first = '.' || pointed || scaled
      let kind : TokenKind := if isFloat || ahead (· = 'f') rest then .floatLiteral else .intLiteral
      let ending := if ahead (· = 'f') rest || (!isFloat && ahead (· = 'u') rest) then 1 else 0
      if ahead (fun c => Letter.isLetter c || c.isDigit) (rest.drop ending) then .fault .suffix (size + ending)
      else .token kind (size + ending)

/-- The first step into a text that is not empty. -/
def step (r : Rune) (rs : List Rune) : Step :=
  let c := r.char
  if c = ' ' || c = '\r' || c = '\t' || c = '\n' then .blank 1
  else if c = '/' && ahead (· = '/') rs then .blank (1 + run (· ≠ '\n') rs)
  else if c = '/' && ahead (· = '*') rs then
    match commentSize 1 (rs.drop 1) with
    | some n => .blank (2 + n)
    | none => .blankFault .openComment (1 + rs.length)
  else if c = '"' then
    match stringSize rs with
    | .ok n => .token .stringLiteral (1 + n)
    | .error n => .fault .openString (1 + n)
  else if c.isDigit || (c = '.' && ahead Char.isDigit rs) then number c rs
  else if isWordStart c then
    let n := 1 + run isWordChar rs
    .token (TokenKind.ofWord (Rune.text ((r :: rs).take n))) n
  else
    let front := Rune.text ((r :: rs).take 3)
    match TokenKind.symbols.find? fun k => k.text.isPrefixOf front with
    | some k => .token k k.text.length
    | none => .fault (.unexpected c) 1

def Step.size : Step → Nat
  | .token _ n | .blank n | .fault _ n | .blankFault _ n => n

/-- The tokens of the runes from a place on, with the one that ends them. -/
def scan (file : Text) (p : Position) : List Rune → Except Diagnostic (List Token)
  | [] => .ok [⟨.endOfFile, [], ⟨p, p, file⟩⟩]
  | r :: rs =>
    let s := step r rs
    let taken := r :: rs.take (s.size - 1)
    let rest := rs.drop (s.size - 1)
    match s with
    | .token kind _ => do
      let stop := p.after taken
      let ts ← scan file stop rest
      return ⟨kind, Rune.text taken, ⟨p, stop, file⟩⟩ :: ts
    | .blank _ => scan file (p.afterLines taken) rest
    | .fault e _ => .error (e.toDiagnostic ⟨p, p.after taken, file⟩)
    | .blankFault e _ => .error (e.toDiagnostic ⟨p, p.afterLines taken, file⟩)
termination_by rs => rs.length
decreasing_by all_goals simp only [List.length_drop, List.length_cons]; omega

end Lexer

/-- The tokens of a source text. The file's name only goes into their places. -/
def tokenize (file source : Text) : Except Diagnostic (List Token) :=
  Lexer.scan file ⟨1, 1, 0⟩ (Rune.ofText source)

end Shading
