import Shading.Expr
import Shading.Typing
import Shading.Proofs.Module.Declarations

/-! The rules of typing. Each of them gives the type of a node from those of its children. -/
namespace Shading

namespace Ty

/-- Is it the size of a vector, or of a side of a matrix? -/
def IsSize (n : UInt32) : Prop := 2 ≤ n ∧ n ≤ 4

mutual

/-- A type in which everything is known, and whose sizes are those of vectors and matrices. -/
def Proper : Ty → Prop
  | .unknown => False
  | .prim p => p ∈ Primitive.named
  | .vector n p => IsSize n ∧ p ∈ Primitive.named
  | .matrix c r p => IsSize c ∧ IsSize r ∧ p.isFloat
  | .array t _ => Proper t
  | .struct r | .uniform r | .storage r => ProperMembers r.members
  | .func _ _ params result => ProperList params ∧ Proper result
  | .sampler _ p _ => p ∈ Primitive.named
  | .intrinsic _ | .void => True

def ProperList : List Ty → Prop
  | [] => True
  | t :: ts => Proper t ∧ ProperList ts

def ProperMembers : List (Text × Ty) → Prop
  | [] => True
  | (_, t) :: ms => Proper t ∧ ProperMembers ms

end

end Ty

namespace Value

/-- A value of a scalar, vector or matrix type. -/
def HasType (v : Value) : Ty → Prop
  | .prim p => v.type = .prim p
  | .vector n p => ∃ cs, v = .vector cs ∧ cs.length = n.toNat ∧ ∀ c ∈ cs, c.type = .prim p
  | .matrix c r p =>
    ∃ cols, v = .matrix cols ∧ cols.length = c.toNat ∧
      ∀ col ∈ cols, col.length = r.toNat ∧ ∀ x ∈ col, x.type = .prim p
  | _ => False

end Value

namespace Referent

/-- A declaration whose types are proper. -/
def Proper : Referent → Prop
  | .variable _ t => t.Proper
  | .constant _ t v => t.Proper ∧ ∀ w, v = some w → w.HasType t
  | .function f => Ty.ProperList f.params ∧ f.result.Proper
  | .struct r => Ty.ProperMembers r.members
  | .alias _ => True

end Referent

namespace Expr

section

variable (Γ : List Referent)

/-- The value of an expression, given those that are declared for constants. -/
def Evaluates (e : Expr) (v : Value) : Prop :=
  ∃ lookup : Int → Option Value,
    (∀ id w, lookup id = some w → ∃ t, Referent.constant id t (some w) ∈ Γ) ∧ e.evaluate lookup = .ok v

/-- The number of a member as the value of an expression. -/
def Selects (e : Expr) (k : Nat) : Prop :=
  e.Evaluates Γ (.i32 (Int32.ofNat k)) ∨ e.Evaluates Γ (.u32 (UInt32.ofNat k))

/-- The type behind one index. -/
inductive IndexStep (e : Expr) : Ty → Ty → Prop
  | array {t : Ty} {n : UInt32} : IndexStep e (.array t n) t
  | vector {n : UInt32} {p : Primitive} : IndexStep e (.vector n p) (.prim p)
  | matrix {c r : UInt32} {p : Primitive} : IndexStep e (.matrix c r p) (.vector r p)
  | member {t : Ty} {r : Record Ty} {k : Nat} {m : Text × Ty} (ht : t.container? = some r)
    (hm : r.members[k]? = some m) (he : e.Selects Γ k) : IndexStep e t m.2

/-- The type behind one index after the other, each of which is an integer. -/
inductive IndexPath : Ty → List Expr → Ty → Prop
  | nil {t : Ty} : IndexPath t [] t
  | cons {t u v : Ty} {e : Expr} {es : List Expr} (he : e.type = .prim .i32 ∨ e.type = .prim .u32)
    (hstep : IndexStep Γ e t u) (hpath : IndexPath u es v) : IndexPath t (e :: es) v

/-- Is the type of an expression the one that the rules derive from the types of what it is made of? -/
def Consistent : Expr → Prop
  | .absent | .name .. | .member .. | .method .. => False
  | .literal i v => v.HasType i.type
  | .var i id => .variable id i.type ∈ Γ
  | .const i id => ∃ v, .constant id i.type v ∈ Γ
  | .function i id => ∃ f, .function f ∈ Γ ∧ f.id = id ∧ i.type = f.type
  | .structRef i id => ∃ r, .struct r ∈ Γ ∧ r.id = id ∧ i.type = .struct r
  | .typeRef i t => i.type = t ∧ ∀ r, t = .struct r → .struct r ∈ Γ
  | .intrinsicRef i f => i.type = .intrinsic f
  | .binary i op l r => l.type.binary op r.type = .ok i.type
  | .unary i op e => e.type.unary op = .ok i.type
  | .assign i op l r =>
    i.type = l.type ∧
      match op.binary? with
      | some b => ∃ t, l.type.binary b r.type = .ok t ∧ t.same l.type
      | none => l.type.same r.type
  | .cast i target args =>
    (∃ j, target = .typeRef j i.type) ∧ i.type.construct (args.map Expr.type) = .ok ()
  | .ternary i c t f => c.type.isBool ∧ t.type.same f.type ∧ i.type = t.type
  | .index i base indices => IndexPath Γ base.type indices i.type
  | .swizzle i base s =>
    ∃ p, base.type.scalarOrVector? = some p ∧ (1 ≤ s.count ∧ s.count ≤ 4) ∧
      (∀ c ∈ s.components, c < base.type.components) ∧ i.type = Ty.vectorOf p s.count
  | .call i target args =>
    ∃ j f, target = .function j f.id ∧ .function f ∈ Γ ∧ Ty.sameList (args.map Expr.type) f.params ∧
      i.type = f.result
  | .intrinsic i f args => f.resultType (args.map Expr.type) = .ok i.type

/-- A call is to a function that is no entry point and that was declared before the one it stands in. If types are
to be closed, a structure behind any number of arrays is a declared one. -/
def Descends (closed : Prop) (function : Option Check.Function) : Expr → Prop
  | .call _ (.function _ id) _ =>
    (∃ f, .function f ∈ Γ ∧ f.id = id ∧ f.isEntry = false) ∧ ∀ g ∈ function, id < g.id
  | .typeRef _ t => closed → ∀ r, t.innermost = .struct r → .struct r ∈ Γ
  | _ => True

end

/-- Is it a type that is known? -/
def IsAnnotation (e : Expr) : Prop := ∃ i t, e = .typeRef i t

end Expr

namespace Stmt

/-- Do the types of what a statement is made of go together? -/
def Consistent (p : Place) : Stmt → Prop
  | .letVar _ d =>
    (d.type = .absent ∧ d.init ≠ .absent) ∨
      d.type.IsAnnotation ∧ (d.init = .absent ∨ d.type.type.same d.init.type)
  | .const _ d => d.value ≠ .absent ∧ (d.type = .absent ∨ d.type.IsAnnotation ∧ d.type.type.same d.value.type)
  | .option _ d => d.type.IsAnnotation ∧ (d.default = .absent ∨ d.default.type.same d.type.type)
  | .struct _ d => ∀ m ∈ d.members, m.type.IsAnnotation ∧ m.cond = .absent
  | .function _ h _ =>
    p.function = none ∧ (∀ x ∈ h.params, x.type.IsAnnotation) ∧ (h.result = .absent ∨ h.result.IsAnnotation)
  | .external _ _ vars => ∀ v ∈ vars, v.type.IsAnnotation
  | .branch _ _ arms _ => ∀ a ∈ arms, a.1.type.isBool
  | .conditional _ c _ => c.type.isBool
  | .loop _ c _ _ => c.type.isBool
  | .forRange _ h _ =>
    (h.start.type = .prim .i32 ∨ h.start.type = .prim .u32) ∧ h.stop.type = h.start.type ∧
      (h.step = .absent ∨ h.step.type = h.start.type)
  | .forEach _ h _ => ∃ t n, h.array.type = .array t n
  | .returnWith _ e =>
    ∃ f ∈ p.function, (e = .absent ∧ f.result = .void) ∨ (e ≠ .absent ∧ e.type.same f.result)
  | _ => True

end Stmt

/-- The rules for a node at its place. Inside functions, lowerings declare variables whose types need not be closed. -/
def Node.Valid (p : Place) : Node → Prop
  | .expr e => e.type.Proper ∧ e.Consistent p.context ∧ e.Descends p.context (p.function = none) p.function
  | .stmt s => s.Consistent p

/-- The rules hold for an expression and for those that it is made of, and types are closed. -/
inductive Expr.Checked (p : Place) : Expr → Prop
  | mk {e : Expr} (h : e.type.Proper ∧ e.Consistent p.context ∧ e.Descends p.context True p.function)
      (hc : ∀ c ∈ e.children, Checked p c) : Checked p e

section

variable {Γ Δ : List Referent} (hsub : Γ ⊆ Δ)
include hsub

theorem Expr.Evaluates.mono {e : Expr} {v : Value} (h : e.Evaluates Γ v) : e.Evaluates Δ v := by
  obtain ⟨lookup, hlookup, hv⟩ := h
  refine ⟨lookup, fun id w hw => ?_, hv⟩
  obtain ⟨t, ht⟩ := hlookup id w hw
  exact ⟨t, hsub ht⟩

theorem Expr.IndexStep.mono {e : Expr} {t u : Ty} (h : IndexStep Γ e t u) : IndexStep Δ e t u := by
  cases h with
  | array => exact .array
  | vector => exact .vector
  | matrix => exact .matrix
  | member ht hm he => exact .member ht hm (he.imp (·.mono hsub) (·.mono hsub))

theorem Expr.IndexPath.mono {es : List Expr} {t u : Ty} (h : IndexPath Γ t es u) : IndexPath Δ t es u := by
  induction h with
  | nil => exact .nil
  | cons he hstep _ ih => exact .cons he (hstep.mono hsub) ih

theorem Expr.Consistent.mono {e : Expr} (h : e.Consistent Γ) : e.Consistent Δ := by
  cases e with
  | var i id => exact hsub h
  | const i id =>
    obtain ⟨v, hv⟩ := h
    exact ⟨v, hsub hv⟩
  | function i id =>
    obtain ⟨f, hf, hid, ht⟩ := h
    exact ⟨f, hsub hf, hid, ht⟩
  | structRef i id =>
    obtain ⟨r, hr, hid, ht⟩ := h
    exact ⟨r, hsub hr, hid, ht⟩
  | typeRef i t => exact ⟨h.1, fun r hr => hsub (h.2 r hr)⟩
  | index i base indices => exact IndexPath.mono hsub h
  | call i target args =>
    obtain ⟨j, f, htarget, hf, hargs, ht⟩ := h
    exact ⟨j, f, htarget, hsub hf, hargs, ht⟩
  | _ => exact h

theorem Expr.Descends.mono {e : Expr} {closed closed' : Prop} {function : Option Check.Function}
    (hclosed : closed' → closed) (h : e.Descends Γ closed function) : e.Descends Δ closed' function := by
  unfold Descends at h ⊢
  split
  · obtain ⟨⟨f, hf, hid, hentry⟩, horder⟩ := h
    exact ⟨⟨f, hsub hf, hid, hentry⟩, horder⟩
  · exact fun hc r hr => hsub (h (hclosed hc) r hr)
  · trivial

end

theorem Node.Valid.mono {p q : Place} (hpq : p.Within q) {n : Node} (h : n.Valid p) : n.Valid q := by
  cases n with
  | expr e =>
    obtain ⟨hproper, hconsistent, hdescends⟩ := h
    refine ⟨hproper, hconsistent.mono hpq.context, ?_⟩
    rw [← hpq.function]
    exact hdescends.mono hpq.context id
  | stmt s =>
    simp only [Valid] at h ⊢
    unfold Stmt.Consistent at h ⊢
    cases s <;> simp only [hpq.function] at h ⊢ <;> exact h

namespace Stmt

variable {env : Surroundings} {p q : Place}

theorem Everywhere.moved {s : Stmt} (h : Everywhere env Node.Valid p s) (hpq : p.Within q) :
    Everywhere env Node.Valid q s :=
  Everywhere.mono (P := Node.Valid) (fun hpq h => h.mono hpq) (.refl env) hpq s h

theorem EverywhereAll.moved {ss : List Stmt} (h : EverywhereAll env Node.Valid p ss) (hpq : p.Within q) :
    EverywhereAll env Node.Valid q ss :=
  EverywhereAll.mono (P := Node.Valid) (fun hpq h => h.mono hpq) (.refl env) hpq ss h

theorem EverywhereArms.moved {arms : List (Expr × Stmt)} (h : EverywhereArms env Node.Valid p arms) (hpq : p.Within q) :
    EverywhereArms env Node.Valid q arms :=
  EverywhereArms.mono (P := Node.Valid) (fun hpq h => h.mono hpq) (.refl env) hpq arms h

end Stmt

namespace Expr.Checked

variable {p q : Place} {e : Expr}

theorem mono (hpq : p.Within q) (h : e.Checked p) : e.Checked q := by
  induction h with
  | mk hrules _ ih =>
    obtain ⟨hproper, hconsistent, hdescends⟩ := hrules
    refine .mk ⟨hproper, hconsistent.mono hpq.context, ?_⟩ ih
    rw [← hpq.function]
    exact hdescends.mono hpq.context id

theorem rules (h : e.Checked p) :
    e.type.Proper ∧ e.Consistent p.context ∧ e.Descends p.context True p.function := by
  cases h with
  | mk hrules _ => exact hrules

theorem valid (h : e.Checked p) : Node.Valid p (.expr e) :=
  ⟨h.rules.1, h.rules.2.1, h.rules.2.2.mono (List.Subset.refl _) fun _ => trivial⟩

theorem child (h : e.Checked p) {c : Expr} (hc : c ∈ e.children) : c.Checked p := by
  cases h with
  | mk _ hchildren => exact hchildren c hc

theorem proper (h : e.Checked p) : e.type.Proper := h.rules.1

theorem consistent (h : e.Checked p) : e.Consistent p.context := h.rules.2.1

theorem not_absent (h : e.Checked p) : e.isAbsent = false := by
  cases e with
  | absent => exact h.consistent.elim
  | _ => rfl

theorem of_mem_nodes (h : e.Checked p) {n : Node} (hn : n ∈ e.nodes) : n.Valid p := by
  induction h with
  | mk hvalid hchildren ih =>
    rename_i e
    rw [Expr.nodes_eq (Checked.mk hvalid hchildren).not_absent] at hn
    rcases List.mem_cons.mp hn with rfl | hn
    · exact (Checked.mk hvalid hchildren).valid
    · obtain ⟨c, hc, hn⟩ := List.mem_flatMap.mp hn
      exact ih c hc hn

end Expr.Checked

namespace Stmt

variable {p : Place} {s : Stmt} {e : Expr}

theorem Here.valid (h : Here Node.Valid p s) (he : e ∈ s.ownExprs) (hpresent : e.isAbsent = false) :
    Node.Valid p (.expr e) := h.2 e he _ (Expr.mem_nodes_self hpresent)

theorem letVar_proper {span : Span} {d : VarDecl} (h : Here Node.Valid p (.letVar span d)) : d.declaration.Proper := by
  rcases h.1 with ⟨htype, hinit⟩ | ⟨⟨i, t, htype⟩, -⟩
  · have hpresent : d.init.isAbsent = false := by
      cases hd : d.init with
      | absent => exact (hinit hd).elim
      | _ => rfl
    have habsent : d.type.isAbsent = true := by rw [htype]; rfl
    simp only [VarDecl.declaration, habsent, if_true, Referent.Proper]
    exact (h.valid (by simp [ownExprs]) hpresent).1
  · have hpresent : d.type.isAbsent = false := by rw [htype]; rfl
    simp only [VarDecl.declaration, hpresent, Bool.false_eq_true, if_false, Referent.Proper]
    exact (h.valid (by simp [ownExprs]) hpresent).1

end Stmt

end Shading
