import Shading.Module

/-! Equality of syntax trees. Places do not matter, nor do the numbers inside types. -/
namespace Shading

namespace Expr

mutual

/-- Equality of expressions together with their types. -/
def same : Expr → Expr → Bool
  | .absent, .absent => true
  | .name i a, .name j b => i.type.same j.type && a == b
  | .var i a, .var j b => i.type.same j.type && a == b
  | .const i a, .const j b => i.type.same j.type && a == b
  | .literal i v, .literal j w => i.type.same j.type && v.same w
  | .binary i op l r, .binary j oq m s => i.type.same j.type && op == oq && same l m && same r s
  | .unary i op e, .unary j oq f => i.type.same j.type && op == oq && same e f
  | .assign i op l r, .assign j oq m s => i.type.same j.type && op == oq && same l m && same r s
  | .cast i t as, .cast j u bs => i.type.same j.type && same t u && sameList as bs
  | .ternary i c t f, .ternary j d u g =>
    i.type.same j.type && same c d && same t u && same f g
  | .index i b is, .index j c js => i.type.same j.type && same b c && sameList is js
  | .member i b ns, .member j c ms =>
    i.type.same j.type && same b c && ns.map (·.text) == ms.map (·.text)
  | .swizzle i b s, .swizzle j c t => i.type.same j.type && s == t && same b c
  | .call i t as, .call j u bs => i.type.same j.type && same t u && sameList as bs
  | .method i o n as, .method j p m bs =>
    i.type.same j.type && n == m && same o p && sameList as bs
  | .intrinsic i f as, .intrinsic j g bs => i.type.same j.type && f == g && sameList as bs
  | .function i a, .function j b => i.type.same j.type && a == b
  | .intrinsicRef i f, .intrinsicRef j g => i.type.same j.type && f == g
  | .structRef i a, .structRef j b => i.type.same j.type && a == b
  | .typeRef i t, .typeRef j u => i.type.same j.type && t.same u
  | _, _ => false

def sameList : List Expr → List Expr → Bool
  | [], [] => true
  | a :: as, b :: bs => same a b && sameList as bs
  | _, _ => false

end

end Expr

/-- Equality of attributes: both values are known and equal, or neither is known. -/
def Attr.same {α : Type} [BEq α] (a b : Attr α) : Bool := a.value == b.value && a.expr.same b.expr

/-- Two lists of one length, equal element by element. -/
def sameBy {α : Type} (f : α → α → Bool) : List α → List α → Bool
  | [], [] => true
  | a :: as, b :: bs => f a b && sameBy f as bs
  | _, _ => false

def StructMember.same (a b : StructMember) : Bool :=
  a.name == b.name && a.type.same b.type && a.builtin.same b.builtin && a.location.same b.location &&
  a.cond.same b.cond

def External.same (a b : External) : Bool :=
  a.name == b.name && a.id == b.id && a.type.same b.type && a.set.same b.set && a.binding.same b.binding

def FnHead.same (a b : FnHead) : Bool :=
  a.name == b.name && a.id == b.id && a.stage.same b.stage && a.earlyTests.same b.earlyTests &&
  a.depthWrite.same b.depthWrite && a.workgroup.same b.workgroup && a.exported.same b.exported &&
  a.result.same b.result &&
  sameBy (fun p q => p.name == q.name && p.id == q.id && p.type.same q.type) a.params b.params

namespace Stmt

mutual

/-- Equality of statements. -/
def same : Stmt → Stmt → Bool
  | .absent, .absent => true
  | .expr _ e, .expr _ f => e.same f
  | .letVar _ a, .letVar _ b =>
    a.name == b.name && a.id == b.id && a.type.same b.type && a.init.same b.init
  | .const _ a, .const _ b =>
    a.name == b.name && a.id == b.id && a.exported.same b.exported && a.type.same b.type &&
    a.value.same b.value
  | .alias _ a, .alias _ b =>
    a.name == b.name && a.id == b.id && a.exported.same b.exported && a.target.same b.target
  | .option _ a, .option _ b =>
    a.name == b.name && a.id == b.id && a.type.same b.type && a.default.same b.default
  | .struct _ a, .struct _ b =>
    a.id == b.id && a.exported.same b.exported && a.name == b.name && a.layout.same b.layout &&
    sameBy StructMember.same a.members b.members
  | .function _ g as, .function _ h bs => g.same h && sameList as bs
  | .external _ s vs, .external _ t ws => s.same t && sameBy External.same vs ws
  | .branch _ c as e, .branch _ d bs f => c == d && sameArms as bs && same e f
  | .conditional _ c s, .conditional _ d t => c.same d && same s t
  | .forRange _ a s, .forRange _ b t =>
    a.name == b.name && a.id == b.id && a.unroll.same b.unroll && a.start.same b.start &&
    a.stop.same b.stop && a.step.same b.step && same s t
  | .forEach _ a s, .forEach _ b t =>
    a.name == b.name && a.id == b.id && a.unroll.same b.unroll && a.array.same b.array && same s t
  | .loop _ c u s, .loop _ d v t => u.same v && c.same d && same s t
  | .returnWith _ e, .returnWith _ f => e.same f
  | .discard _, .discard _ => true
  | .breakLoop _, .breakLoop _ => true
  | .continueLoop _, .continueLoop _ => true
  | .noOp _, .noOp _ => true
  | .importFrom _ m xs, .importFrom _ n ys =>
    m == n && sameBy (fun x y => x.name == y.name && x.rename == y.rename) xs ys
  | .multi _ as, .multi _ bs => sameList as bs
  | .scoped _ s, .scoped _ t => same s t
  | _, _ => false

def sameList : List Stmt → List Stmt → Bool
  | [], [] => true
  | a :: as, b :: bs => same a b && sameList as bs
  | _, _ => false

def sameArms : List (Expr × Stmt) → List (Expr × Stmt) → Bool
  | [], [] => true
  | (c, s) :: as, (d, t) :: bs => c.same d && same s t && sameArms as bs
  | _, _ => false

end

end Stmt

namespace Module

mutual

/-- Has the module a root, and has each one that it imports? -/
def isRooted : Module → Bool
  | ⟨_, is, r⟩ => r.isSome && areRooted is

def areRooted : List (Text × Module) → Bool
  | [] => true
  | (_, m) :: ms => isRooted m && areRooted ms

end

mutual

/-- Equality of modules, as if roots could be compared where there are none. -/
def same : Module → Module → Bool
  | ⟨m, is, r⟩, ⟨n, js, s⟩ =>
    m == n && sameImported is js &&
    match r, s with
    | some a, some b => a.toStmt.same b.toStmt
    | none, none => true
    | _, _ => false

def sameImported : List (Text × Module) → List (Text × Module) → Bool
  | [], [] => true
  | (a, m) :: ms, (b, n) :: ns => a == b && same m n && sameImported ms ns
  | _, _ => false

end

mutual

/-- Compares modules part by part, up to the first part in which they differ. There is no answer if the roots are
compared and one of them is missing. -/
def equal? : Module → Module → Option Bool
  | ⟨m, is, r⟩, ⟨n, js, s⟩ => do
    if m != n || is.length != js.length then return false
    if !(← equalImported? is js) then return false
    return (← r).toStmt.same (← s).toStmt

def equalImported? : List (Text × Module) → List (Text × Module) → Option Bool
  | (a, m) :: ms, (b, n) :: ns => do
    if a != b then return false
    if !(← equal? m n) then return false
    equalImported? ms ns
  | _, _ => return true

end

end Module

end Shading
