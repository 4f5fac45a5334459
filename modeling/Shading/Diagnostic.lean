import Shading.Reserved
import Shading.Source

/-! Diagnostics: located messages about a source text. -/
namespace Shading

/-- The part of the work that found a fault. -/
inductive Fault
  | lexical
  | grammatical
  | semantic
  | backend
  | reserved (code : Reserved 4)
deriving DecidableEq, Repr

namespace Fault

def named : List Fault := [lexical, grammatical, semantic, backend]

def ofCode (c : UInt8) : Fault :=
  if h : 4 ≤ c then .reserved ⟨c, h⟩ else named.getD c.toNat .lexical

def text : Fault → Text
  | .lexical => "lex"
  | .grammatical => "parse"
  | .semantic => "semantic"
  | .backend => "backend"
  | .reserved c => "ErrorKind(" ++ Text.ofNat c.code.toNat ++ ")"

end Fault

/-- A message about a place. A grammatical fault also says what was expected and what was found. -/
structure Diagnostic where
  fault : Fault
  span : Span
  message : Text
  expected : Text := []
  found : Text := []
deriving DecidableEq, Repr

namespace Diagnostic

/-- The message on one line, with its place if it has one. -/
def text (d : Diagnostic) : Text :=
  if d.span.isValid then d.fault.text ++ " error at " ++ d.span.text ++ ": " ++ d.message
  else d.fault.text ++ " error: " ++ d.message

/-- The column at which a line of a given length is marked. -/
private def markedColumn (column : Int) (length : Nat) : Nat :=
  (min (max column 1) (length + 1)).toNat

/-- The message above the line that it is about, which is marked below. A message without a place in
the source is given on one line. -/
def excerpt (d : Diagnostic) (source : Text) : Text :=
  let lines := Text.cut (Text.byte '\n') source
  let number := d.span.start.line
  if source.isEmpty || !d.span.isValid || lines.length < number then d.text
  else
    let line := lines.getD (number.toNat - 1) []
    let column := markedColumn d.span.start.column line.length
    let width := if d.span.stop.line = number && column < d.span.stop.column
      then (d.span.stop.column - column).toNat else 1
    d.fault.text ++ " error: " ++ d.message ++ "\n" ++
    "  --> line " ++ Text.ofInt number ++ ":" ++ Text.ofNat column ++ "\n" ++
    "   |\n" ++
    Text.padLeft 3 (Text.ofInt number) ++ "| " ++ line ++ "\n" ++
    "   | " ++ Text.times (column - 1) " " ++ Text.times width "^" ++ "\n"

end Diagnostic

end Shading
