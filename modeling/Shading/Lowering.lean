import Shading.Stmt

/-! Statements and expressions lowered to simpler ones: chains of branches, loops over ranges and
arrays, and casts between matrices. -/
namespace Shading

/-- The next number for a variable, and how many temporary variables there are. -/
structure Supply where
  nextVar : Int
  temporaries : Nat

namespace Supply

/-- The name of the `n`th temporary variable. -/
def tempName (what : Text) (n : Nat) : Text := "nzsl_" ++ what ++ Text.ofNat n

/-- A temporary variable that holds the value of an expression: its declaration and its number. -/
def temp (what : Text) (t : Ty) (init : Expr) : StateM Supply (Stmt × Int) := do
  let s ← get
  set { s with nextVar := Serial.next s.nextVar, temporaries := s.temporaries + 1 : Supply }
  let span := init.span
  let decl : VarDecl :=
    { name := tempName what s.temporaries, type := .ofType span t, init, id := s.nextVar }
  return (.letVar span decl, s.nextVar)

end Supply

namespace Stmt

/-- The rest of a chain of branches as branches inside each other. -/
def splitRest (otherwise : Stmt) : List (Expr × Stmt) → Stmt
  | [] => otherwise
  | (c, s) :: rest => .branch c.span false [(c, s)] (splitRest otherwise rest)

/-- A chain of branches as branches inside each other with one condition each. -/
def splitBranch (span : Span) (isConst : Bool) (arms : List (Expr × Stmt)) (otherwise : Stmt) : Stmt :=
  match arms with
  | [] | [_] => .branch span isConst arms otherwise
  | arm :: rest => .branch span false [arm] (splitRest otherwise rest)

/-- Statements in a scope of their own. -/
def block (span : Span) (body : List Stmt) : Stmt := .scoped span (.multi span body)

mutual

/-- Lets every `continue` of a loop's body run a statement first. Loops inside the body keep theirs. -/
def beforeContinue (inc : Stmt) : Stmt → Stmt
  | .continueLoop span => block span [inc, .continueLoop span]
  | .multi span body => .multi span (beforeContinueAll inc body)
  | .scoped span body => .scoped span (beforeContinue inc body)
  | .branch span isConst arms otherwise =>
    .branch span isConst (beforeContinueArms inc arms) (beforeContinue inc otherwise)
  | .conditional span cond body => .conditional span cond (beforeContinue inc body)
  | s => s

def beforeContinueAll (inc : Stmt) : List Stmt → List Stmt
  | [] => []
  | s :: ss => beforeContinue inc s :: beforeContinueAll inc ss

def beforeContinueArms (inc : Stmt) : List (Expr × Stmt) → List (Expr × Stmt)
  | [] => []
  | (c, s) :: rest => (c, beforeContinue inc s) :: beforeContinueArms inc rest

end

/-- Adds a step to a variable. -/
def increment (span : Span) (id : Int) (t : Ty) (step : Expr) : Stmt :=
  .expr span (.assign ⟨span, t⟩ .add (.ofVar span id t) step)

def lessThan (span : Span) (l r : Expr) : Expr := .binary ⟨span, .prim .bool⟩ .lt l r

def isLiteral : Expr → Bool
  | .literal .. => true
  | _ => false

/-- The value of an expression under a name of its own; a literal stands for itself. -/
def hold (what : Text) (t : Ty) (e : Expr) : StateM Supply (List Stmt × Expr) := do
  if isLiteral e then return ([], e)
  let (decl, id) ← Supply.temp what t e
  return ([decl], .ofVar e.span id t)

/-- A loop over a range as one with a condition:
`let i = start; let to = stop; while (i < to) body, i += step`. -/
def reduceRange (span : Span) (h : RangeHead) (p : Primitive) (body : Stmt) : StateM Supply Stmt := do
  let t : Ty := .prim p
  let start : Stmt := .letVar span { name := h.name, init := h.start, id := h.id }
  let (stopDecl, stop) ← hold "to" t h.stop
  let (stepDecl, step) ←
    if h.step.isAbsent then pure ([], Expr.ofValue span (Value.scalar p true)) else hold "step" t h.step
  let inc := increment span h.id t step
  let loop : Stmt := .loop span (lessThan span (.ofVar span h.id t) stop) h.unroll
    (block span [beforeContinue inc body, inc])
  return block span (start :: stopDecl ++ stepDecl ++ [loop])

end Stmt

namespace Expr

mutual

/-- Does the expression read a variable or a constant only, so that it may be evaluated again? -/
def isPlace : Expr → Bool
  | .var .. | .const .. | .literal .. => true
  | .index _ base indices => arePlaces indices && isPlace base
  | .swizzle _ base _ => isPlace base
  | _ => false

def arePlaces : List Expr → Bool
  | [] => true
  | e :: es => isPlace e && arePlaces es

end

/-- An entry of the identity matrix. -/
def identityEntry (p : Primitive) (row column : Nat) : Value := Value.scalar p (row == column)

/-- A column of a matrix that is read from one with other numbers of columns and rows. -/
def resizedColumn (span : Span) (read : Expr) (sourceColumns sourceRows rows : UInt32)
    (p q : Primitive) (c : Nat) : Expr :=
  if sourceColumns.toNat ≤ c then
    ofValue span (.vector ((List.range rows.toNat).map fun r => identityEntry p r c))
  else
    let column : Expr := .index ⟨span, .vector sourceRows q⟩ read
      [ofValue span (.i32 (Int32.ofNat c))]
    if rows = sourceRows then column
    else if rows < sourceRows then
      .swizzle ⟨span, .vector rows p⟩ column
        (Selector.ofList ((List.range rows.toNat).map Nat.toUInt32))
    else
      let added := (List.range' sourceRows.toNat (rows.toNat - sourceRows.toNat)).map
        fun r => ofValue span (identityEntry p r c)
      .cast ⟨span, .vector rows p⟩ (ofType span (.vector rows p)) (column :: added)

/-- A matrix built column by column from one of another shape. What the source does not have is as in
the identity matrix. -/
def resizedMatrix (span : Span) (read : Expr) (sourceColumns sourceRows : UInt32) (q : Primitive)
    (columns rows : UInt32) (p : Primitive) : Expr :=
  .cast ⟨span, .matrix columns rows p⟩ (ofType span (.matrix columns rows p))
    ((List.range columns.toNat).map (resizedColumn span read sourceColumns sourceRows rows p q))

end Expr

namespace Stmt

/-- A loop over the elements of an array as one over its indices. -/
def reduceEach (span : Span) (h : EachHead) (elem : Ty) (length : UInt32) (body : Stmt) :
    StateM Supply Stmt := do
  let (arrayDecl, array) ←
    if h.array.isPlace then pure ([], h.array)
    else do
      let (decl, id) ← Supply.temp "array" (.array elem length) h.array
      pure ([decl], Expr.ofVar h.array.span id (.array elem length))
  let u32 : Ty := .prim .u32
  let (counterDecl, id) ← Supply.temp "index" u32 (.ofValue span (.u32 0))
  let size : Expr :=
    if length = 0 then .intrinsic ⟨span, u32⟩ .size [array] else .ofValue span (.u32 length)
  let element : Stmt := .letVar span
    { name := h.name, init := .index ⟨span, elem⟩ array [.ofVar span id u32], id := h.id }
  let inc := increment span id u32 (.ofValue span (.u32 1))
  let loop : Stmt := .loop span (lessThan span (.ofVar span id u32) size) h.unroll
    (block span [element, beforeContinue inc body, inc])
  return block span (arrayDecl ++ [counterDecl, loop])

end Stmt

end Shading
