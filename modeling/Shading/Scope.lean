import Shading.Expr

/-! Lexical scopes. -/
namespace Shading

/-- What a name stands for. -/
inductive Binding
  | function (id : Int)
  | variable (id : Int)
  | struct (id : Int)
  | constant (id : Int)
  | external (id : Int)
  | alias (id : Int) (target : Expr)
  /-- a symbol of a module that could not be found -/
  | unresolved

/-- A kind of declaration. Declarations of different kinds may share a name. -/
inductive Category
  | function | variable | struct | constant | external | alias | unresolved
deriving DecidableEq, Repr

namespace Category

/-- Of several declarations of one name in one scope, that of the lowest rank is meant. -/
def rank : Category → Nat
  | .function => 0 | .variable => 1 | .struct => 2 | .constant => 3 | .external => 4 | .alias => 5
  | .unresolved => 6

def text : Category → Text
  | .function => "function" | .variable => "variable" | .struct => "struct"
  | .constant => "constant" | .external => "external" | .alias => "alias" | .unresolved => "symbol"

end Category

def Binding.category : Binding → Category
  | .function _ => .function
  | .variable _ => .variable
  | .struct _ => .struct
  | .constant _ => .constant
  | .external _ => .external
  | .alias .. => .alias
  | .unresolved => .unresolved

/-- The declarations of one scope in the order in which they were made. -/
abbrev Scope := List (Text × Binding)

namespace Scope

/-- Is there a declaration of that name and kind? -/
def holds (s : Scope) (name : Text) (c : Category) : Bool :=
  s.any fun d => d.1 == name && d.2.category == c

/-- The declaration of the lowest rank among those of a name. -/
def best? (s : Scope) (name : Text) : Option Binding :=
  ((s.filter (·.1 == name)).map (·.2)).foldl
    (fun best b => match best with
      | none => some b
      | some a => if b.category.rank < a.category.rank then some b else some a) none

/-- Adds a declaration, in place of one of the same name and kind if there is one. -/
def put (s : Scope) (name : Text) (b : Binding) : Scope :=
  if s.holds name b.category then
    s.map fun d => if d.1 == name && d.2.category == b.category then (name, b) else d
  else s ++ [(name, b)]

end Scope

/-- The scopes around a place, the innermost first. -/
structure Scopes where
  levels : List Scope := []

namespace Scopes

def push (s : Scopes) : Scopes := ⟨[] :: s.levels⟩

def pop (s : Scopes) : Scopes := ⟨s.levels.tail⟩

/-- Adds a declaration to the innermost scope. There may be none of that name and kind yet. -/
def declare? (s : Scopes) (name : Text) (b : Binding) : Option Scopes :=
  match s.levels with
  | [] => none
  | scope :: outer =>
    if scope.holds name b.category then none else some ⟨(scope ++ [(name, b)]) :: outer⟩

/-- Adds a declaration to the innermost scope, in place of one of that name and kind. -/
def replace (s : Scopes) (name : Text) (b : Binding) : Scopes :=
  match s.levels with
  | [] => s
  | scope :: outer => ⟨scope.put name b :: outer⟩

/-- What a name stands for in the innermost scope that declares it. -/
def lookup? (s : Scopes) (name : Text) : Option Binding :=
  s.levels.findSome? fun scope => scope.best? name

/-- How many declarations there are in all scopes. -/
def size (s : Scopes) : Nat := s.levels.flatten.length

end Scopes

end Shading
