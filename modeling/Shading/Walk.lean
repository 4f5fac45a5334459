import Shading.Stmt

/-! Walks through syntax trees. -/
namespace Shading

/-- A node of a syntax tree. -/
inductive Node
  | expr (e : Expr)
  | stmt (s : Stmt)

namespace Node

def form : Node → Text
  | .expr e => e.form
  | .stmt s => s.form

def stmt? : Node → Option Stmt
  | .stmt s => some s
  | .expr _ => none

def expr? : Node → Option Expr
  | .expr e => some e
  | .stmt _ => none

end Node

/-- A step of a walk: a node is entered, or the last one that is still open is left. -/
inductive Visit
  | enter (n : Node)
  | leave

def Visit.node? : Visit → Option Node
  | .enter n => some n
  | .leave => none

/-- The visit of a node, around those of its children. A node that is not kept has neither children nor
an end. -/
def Visit.around (keep : Node → Bool) (n : Node) (children : List Visit) : List Visit :=
  if keep n then .enter n :: (children ++ [.leave]) else [.enter n]

namespace Expr

variable (keep : Node → Bool)

mutual

/-- The walk through an expression, each node before its children. -/
def walk : Expr → List Visit
  | .absent => []
  | e@(.name ..) | e@(.var ..) | e@(.const ..) | e@(.literal ..) | e@(.function ..)
  | e@(.intrinsicRef ..) | e@(.structRef ..) | e@(.typeRef ..) => Visit.around keep (.expr e) []
  | .binary i op l r => Visit.around keep (.expr (.binary i op l r)) (walk l ++ walk r)
  | .unary i op e => Visit.around keep (.expr (.unary i op e)) (walk e)
  | .assign i op l r => Visit.around keep (.expr (.assign i op l r)) (walk l ++ walk r)
  | .cast i t as => Visit.around keep (.expr (.cast i t as)) (walk t ++ walkAll as)
  | .ternary i c t f => Visit.around keep (.expr (.ternary i c t f)) (walk c ++ walk t ++ walk f)
  | .index i b is => Visit.around keep (.expr (.index i b is)) (walk b ++ walkAll is)
  | .member i b ns => Visit.around keep (.expr (.member i b ns)) (walk b)
  | .swizzle i b s => Visit.around keep (.expr (.swizzle i b s)) (walk b)
  | .call i t as => Visit.around keep (.expr (.call i t as)) (walk t ++ walkAll as)
  | .method i o n as => Visit.around keep (.expr (.method i o n as)) (walk o ++ walkAll as)
  | .intrinsic i f as => Visit.around keep (.expr (.intrinsic i f as)) (walkAll as)

def walkAll : List Expr → List Visit
  | [] => []
  | e :: es => walk e ++ walkAll es

end

end Expr

namespace Attr

def walk {α : Type} (keep : Node → Bool) (a : Attr α) : List Visit := a.expr.walk keep

end Attr

namespace Stmt

variable (keep : Node → Bool)

def walkMember (m : StructMember) : List Visit :=
  m.type.walk keep ++ m.builtin.walk keep ++ m.location.walk keep ++ m.cond.walk keep

def walkExternal (v : External) : List Visit :=
  v.type.walk keep ++ v.set.walk keep ++ v.binding.walk keep

def walkHead (h : FnHead) : List Visit :=
  h.stage.walk keep ++ h.earlyTests.walk keep ++ h.depthWrite.walk keep ++ h.workgroup.walk keep ++
  h.exported.walk keep ++ h.params.flatMap (·.type.walk keep) ++ h.result.walk keep

mutual

/-- The walk through a statement, each node before its children. -/
def walk : Stmt → List Visit
  | .absent => []
  | .expr s e => Visit.around keep (.stmt (.expr s e)) (e.walk keep)
  | .letVar s d =>
    Visit.around keep (.stmt (.letVar s d)) (d.type.walk keep ++ d.init.walk keep)
  | .const s d =>
    Visit.around keep (.stmt (.const s d))
      (d.type.walk keep ++ d.value.walk keep ++ d.exported.walk keep)
  | .alias s d =>
    Visit.around keep (.stmt (.alias s d)) (d.target.walk keep ++ d.exported.walk keep)
  | .option s d =>
    Visit.around keep (.stmt (.option s d)) (d.type.walk keep ++ d.default.walk keep)
  | .struct s d =>
    Visit.around keep (.stmt (.struct s d))
      (d.exported.walk keep ++ d.layout.walk keep ++ d.members.flatMap (walkMember keep))
  | .function s h body =>
    Visit.around keep (.stmt (.function s h body)) (walkHead keep h ++ walkAll body)
  | .external s set vars =>
    Visit.around keep (.stmt (.external s set vars))
      (set.walk keep ++ vars.flatMap (walkExternal keep))
  | .branch s c arms other =>
    Visit.around keep (.stmt (.branch s c arms other)) (walkArms arms ++ walk other)
  | .conditional s c body =>
    Visit.around keep (.stmt (.conditional s c body)) (c.walk keep ++ walk body)
  | .forRange s h body =>
    Visit.around keep (.stmt (.forRange s h body))
      (h.unroll.walk keep ++ h.start.walk keep ++ h.stop.walk keep ++ h.step.walk keep ++ walk body)
  | .forEach s h body =>
    Visit.around keep (.stmt (.forEach s h body))
      (h.unroll.walk keep ++ h.array.walk keep ++ walk body)
  | .loop s c u body =>
    Visit.around keep (.stmt (.loop s c u body)) (u.walk keep ++ c.walk keep ++ walk body)
  | .returnWith s e => Visit.around keep (.stmt (.returnWith s e)) (e.walk keep)
  | .discard s => Visit.around keep (.stmt (.discard s)) []
  | .breakLoop s => Visit.around keep (.stmt (.breakLoop s)) []
  | .continueLoop s => Visit.around keep (.stmt (.continueLoop s)) []
  | .importFrom s m items => Visit.around keep (.stmt (.importFrom s m items)) []
  | .multi s body => Visit.around keep (.stmt (.multi s body)) (walkAll body)
  | .scoped s body => Visit.around keep (.stmt (.scoped s body)) (walk body)
  | .noOp s => Visit.around keep (.stmt (.noOp s)) []

def walkAll : List Stmt → List Visit
  | [] => []
  | s :: ss => walk s ++ walkAll ss

def walkArms : List (Expr × Stmt) → List Visit
  | [] => []
  | (c, s) :: arms => c.walk keep ++ walk s ++ walkArms arms

end

/-- All nodes of a statement, each before its children. -/
def nodes (s : Stmt) : List Node := (s.walk fun _ => true).filterMap Visit.node?

end Stmt

def Expr.nodes (e : Expr) : List Node := (e.walk fun _ => true).filterMap Visit.node?

/-- A visitor is called for a node before its children and, with no node, behind them. Its answer to the first call
is the visitor of the children; a node that it gives no answer to is left out with all that is inside it. -/
abbrev Visitor (σ V : Type) := V → Option Node → StateM σ (Option V)

namespace Visitor

variable {σ V : Type} (visit : Visitor σ V)

/-- The calls for a node around those for its children. -/
def around (v : V) (n : Node) (children : V → StateM σ Unit) : StateM σ Unit := do
  match ← visit v (some n) with
  | none => pure ()
  | some w =>
    children w
    discard (visit w none)

/-- The visitor that records the calls of another one. -/
def logged : Visitor (σ × List (V × Option Node)) V := fun v n (s, log) =>
  let (w, s) := visit v n s
  (w, (s, log ++ [(v, n)]))

/-- The visitor without a state that goes on below the nodes that are kept. -/
def keeping (keep : Node → Bool) : Visitor Unit Unit := fun _ n _ =>
  (if n.any keep then some () else none, ())

end Visitor

section Tour

variable {σ V : Type} (visit : Visitor σ V)

namespace Expr

mutual

/-- The walk of a visitor through an expression. -/
def tour (v : V) : Expr → StateM σ Unit
  | .absent => pure ()
  | e@(.name ..) | e@(.var ..) | e@(.const ..) | e@(.literal ..) | e@(.function ..)
  | e@(.intrinsicRef ..) | e@(.structRef ..) | e@(.typeRef ..) => visit.around v (.expr e) fun _ => pure ()
  | .binary i op l r => visit.around v (.expr (.binary i op l r)) fun w => do tour w l; tour w r
  | .unary i op e => visit.around v (.expr (.unary i op e)) fun w => tour w e
  | .assign i op l r => visit.around v (.expr (.assign i op l r)) fun w => do tour w l; tour w r
  | .cast i t as => visit.around v (.expr (.cast i t as)) fun w => do tour w t; tourAll w as
  | .ternary i c t f => visit.around v (.expr (.ternary i c t f)) fun w => do tour w c; tour w t; tour w f
  | .index i b is => visit.around v (.expr (.index i b is)) fun w => do tour w b; tourAll w is
  | .member i b ns => visit.around v (.expr (.member i b ns)) fun w => tour w b
  | .swizzle i b s => visit.around v (.expr (.swizzle i b s)) fun w => tour w b
  | .call i t as => visit.around v (.expr (.call i t as)) fun w => do tour w t; tourAll w as
  | .method i o n as => visit.around v (.expr (.method i o n as)) fun w => do tour w o; tourAll w as
  | .intrinsic i f as => visit.around v (.expr (.intrinsic i f as)) fun w => tourAll w as

def tourAll (v : V) : List Expr → StateM σ Unit
  | [] => pure ()
  | e :: es => do tour v e; tourAll v es

end

end Expr

namespace Stmt

def tourMember (v : V) (m : StructMember) : StateM σ Unit := do
  m.type.tour visit v
  m.builtin.expr.tour visit v
  m.location.expr.tour visit v
  m.cond.tour visit v

def tourExternal (v : V) (x : External) : StateM σ Unit := do
  x.type.tour visit v
  x.set.expr.tour visit v
  x.binding.expr.tour visit v

def tourHead (v : V) (h : FnHead) : StateM σ Unit := do
  h.stage.expr.tour visit v
  h.earlyTests.expr.tour visit v
  h.depthWrite.expr.tour visit v
  h.workgroup.expr.tour visit v
  h.exported.expr.tour visit v
  h.params.forM fun p => p.type.tour visit v
  h.result.tour visit v

mutual

/-- The walk of a visitor through a statement. -/
def tour (v : V) : Stmt → StateM σ Unit
  | .absent => pure ()
  | .expr s e => visit.around v (.stmt (.expr s e)) fun w => e.tour visit w
  | .letVar s d =>
    visit.around v (.stmt (.letVar s d)) fun w => do
      d.type.tour visit w
      d.init.tour visit w
  | .const s d =>
    visit.around v (.stmt (.const s d)) fun w => do
      d.type.tour visit w
      d.value.tour visit w
      d.exported.expr.tour visit w
  | .alias s d =>
    visit.around v (.stmt (.alias s d)) fun w => do
      d.target.tour visit w
      d.exported.expr.tour visit w
  | .option s d =>
    visit.around v (.stmt (.option s d)) fun w => do
      d.type.tour visit w
      d.default.tour visit w
  | .struct s d =>
    visit.around v (.stmt (.struct s d)) fun w => do
      d.exported.expr.tour visit w
      d.layout.expr.tour visit w
      d.members.forM (tourMember visit w)
  | .function s h body =>
    visit.around v (.stmt (.function s h body)) fun w => do
      tourHead visit w h
      tourAll w body
  | .external s set vars =>
    visit.around v (.stmt (.external s set vars)) fun w => do
      set.expr.tour visit w
      vars.forM (tourExternal visit w)
  | .branch s c arms other =>
    visit.around v (.stmt (.branch s c arms other)) fun w => do
      tourArms w arms
      tour w other
  | .conditional s c body =>
    visit.around v (.stmt (.conditional s c body)) fun w => do
      c.tour visit w
      tour w body
  | .forRange s h body =>
    visit.around v (.stmt (.forRange s h body)) fun w => do
      h.unroll.expr.tour visit w
      h.start.tour visit w
      h.stop.tour visit w
      h.step.tour visit w
      tour w body
  | .forEach s h body =>
    visit.around v (.stmt (.forEach s h body)) fun w => do
      h.unroll.expr.tour visit w
      h.array.tour visit w
      tour w body
  | .loop s c u body =>
    visit.around v (.stmt (.loop s c u body)) fun w => do
      u.expr.tour visit w
      c.tour visit w
      tour w body
  | .returnWith s e => visit.around v (.stmt (.returnWith s e)) fun w => e.tour visit w
  | .discard s => visit.around v (.stmt (.discard s)) fun _ => pure ()
  | .breakLoop s => visit.around v (.stmt (.breakLoop s)) fun _ => pure ()
  | .continueLoop s => visit.around v (.stmt (.continueLoop s)) fun _ => pure ()
  | .importFrom s m items => visit.around v (.stmt (.importFrom s m items)) fun _ => pure ()
  | .multi s body => visit.around v (.stmt (.multi s body)) fun w => tourAll w body
  | .scoped s body => visit.around v (.stmt (.scoped s body)) fun w => tour w body
  | .noOp s => visit.around v (.stmt (.noOp s)) fun _ => pure ()

def tourAll (v : V) : List Stmt → StateM σ Unit
  | [] => pure ()
  | s :: ss => do tour v s; tourAll v ss

def tourArms (v : V) : List (Expr × Stmt) → StateM σ Unit
  | [] => pure ()
  | (c, s) :: arms => do
    c.tour visit v
    tour v s
    tourArms v arms

end

end Stmt

/-- The walk of a visitor through what is below a node and the node itself. -/
def Node.tour (v : V) : Node → StateM σ Unit
  | .expr e => e.tour visit v
  | .stmt s => s.tour visit v

end Tour

end Shading
