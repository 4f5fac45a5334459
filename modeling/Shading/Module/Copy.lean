import Shading.Module

/-! Deep copies of syntax trees. Types and values are shared. -/
namespace Shading

namespace Expr

mutual

/-- A copy of an expression. -/
def clone : Expr → Expr
  | .binary i op l r => .binary i op (clone l) (clone r)
  | .unary i op e => .unary i op (clone e)
  | .assign i op l r => .assign i op (clone l) (clone r)
  | .cast i target args => .cast i (clone target) (cloneList args)
  | .ternary i c t f => .ternary i (clone c) (clone t) (clone f)
  | .index i base indices => .index i (clone base) (cloneList indices)
  | .member i base names => .member i (clone base) names
  | .swizzle i base s => .swizzle i (clone base) s
  | .call i target args => .call i (clone target) (cloneList args)
  | .method i object n args => .method i (clone object) n (cloneList args)
  | .intrinsic i fn args => .intrinsic i fn (cloneList args)
  | e => e

def cloneList : List Expr → List Expr
  | [] => []
  | e :: es => clone e :: cloneList es

end

end Expr

def Attr.clone {α : Type} (a : Attr α) : Attr α := { a with expr := a.expr.clone }

def VarDecl.clone (d : VarDecl) : VarDecl := { d with type := d.type.clone, init := d.init.clone }

def ConstDecl.clone (d : ConstDecl) : ConstDecl :=
  { d with type := d.type.clone, value := d.value.clone, exported := d.exported.clone }

def AliasDecl.clone (d : AliasDecl) : AliasDecl :=
  { d with target := d.target.clone, exported := d.exported.clone }

def OptionDecl.clone (d : OptionDecl) : OptionDecl :=
  { d with type := d.type.clone, default := d.default.clone }

def StructMember.clone (m : StructMember) : StructMember :=
  { m with type := m.type.clone, builtin := m.builtin.clone, location := m.location.clone, cond := m.cond.clone }

def StructDecl.clone (d : StructDecl) : StructDecl :=
  { d with
    exported := d.exported.clone, layout := d.layout.clone, members := d.members.map StructMember.clone }

def FnParam.clone (p : FnParam) : FnParam := { p with type := p.type.clone }

def FnHead.clone (h : FnHead) : FnHead :=
  { h with
    stage := h.stage.clone, earlyTests := h.earlyTests.clone, depthWrite := h.depthWrite.clone
    workgroup := h.workgroup.clone, exported := h.exported.clone, params := h.params.map FnParam.clone
    result := h.result.clone }

def External.clone (v : External) : External :=
  { v with type := v.type.clone, set := v.set.clone, binding := v.binding.clone }

def RangeHead.clone (h : RangeHead) : RangeHead :=
  { h with
    start := h.start.clone, stop := h.stop.clone, step := h.step.clone, unroll := h.unroll.clone }

def EachHead.clone (h : EachHead) : EachHead :=
  { h with array := h.array.clone, unroll := h.unroll.clone }

namespace Stmt

mutual

/-- A copy of a statement. -/
def clone : Stmt → Stmt
  | .expr s e => .expr s e.clone
  | .letVar s d => .letVar s d.clone
  | .const s d => .const s d.clone
  | .alias s d => .alias s d.clone
  | .option s d => .option s d.clone
  | .struct s d => .struct s d.clone
  | .function s head body => .function s head.clone (cloneList body)
  | .external s set vars => .external s set.clone (vars.map External.clone)
  | .branch s isConst arms other => .branch s isConst (cloneArms arms) (clone other)
  | .conditional s c body => .conditional s c.clone (clone body)
  | .forRange s head body => .forRange s head.clone (clone body)
  | .forEach s head body => .forEach s head.clone (clone body)
  | .loop s c unroll body => .loop s c.clone unroll.clone (clone body)
  | .returnWith s e => .returnWith s e.clone
  | .multi s body => .multi s (cloneList body)
  | .scoped s body => .scoped s (clone body)
  | t => t

def cloneList : List Stmt → List Stmt
  | [] => []
  | s :: ss => clone s :: cloneList ss

def cloneArms : List (Expr × Stmt) → List (Expr × Stmt)
  | [] => []
  | (c, s) :: arms => (c.clone, clone s) :: cloneArms arms

end

end Stmt

namespace Module

mutual

/-- A copy of a module and of those that it imports. -/
def clone : Module → Module
  | ⟨m, is, r⟩ => ⟨m, cloneImported is, r.map fun b => ⟨b.span, Stmt.cloneList b.body⟩⟩

def cloneImported : List (Text × Module) → List (Text × Module)
  | [] => []
  | (name, m) :: ms => (name, clone m) :: cloneImported ms

end

end Module

end Shading
