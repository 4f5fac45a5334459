import Shading.Text

/-! Places in a source text. -/
namespace Shading

/-- A line and a column, both counted from one, and a byte offset. -/
structure Position where
  line : Int := 0
  column : Int := 0
  offset : Int := 0
deriving DecidableEq, Repr, Inhabited

/-- A stretch of a source text. The one whose first line is not positive points nowhere. -/
structure Span where
  start : Position := {}
  stop : Position := {}
  file : Text := []
deriving DecidableEq, Repr, Inhabited

namespace Span

def isValid (s : Span) : Bool := 0 < s.start.line

/-- The start of the span as `file:line:column`. -/
def text (s : Span) : Text :=
  let place := Text.ofInt s.start.line ++ ":" ++ Text.ofInt s.start.column
  if s.file.isEmpty then place else s.file ++ ":" ++ place

/-- The span from the start of this one to the end of the other, or to the other's start if it has no
end. -/
def extendTo (s other : Span) : Span :=
  { s with stop := if other.stop.line = 0 then other.start else other.stop }

end Span

end Shading
