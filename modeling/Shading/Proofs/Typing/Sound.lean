import Shading.Lowering
import Shading.Proofs.Typing.Proper

/-! Trees whose types are those of values. Of the rules of typing these are what values depend on, whatever can be
referred to. -/
namespace Shading

namespace Ty

/-- Is a type the one behind some indices, as far as they lead through vectors and matrices? -/
def Behind (u : Ty) : Nat → Ty → Prop
  | 0, t => u = t
  | n + 1, .vector _ p => Behind u n (.prim p)
  | n + 1, .matrix _ r p => Behind u n (.vector r p)
  | _ + 1, _ => True

theorem Behind.succ {u v t : Ty} {n : Nat} (h : Behind u n t) (hv : Behind v 1 u) : Behind v (n + 1) t := by
  induction n generalizing t with
  | zero =>
    cases h
    exact hv
  | succ n ih =>
    cases t with
    | vector k p => exact ih (t := .prim p) h
    | matrix c r p => exact ih (t := .vector r p) h
    | _ => trivial

/-- Members do not lead to values. -/
theorem Behind.of_container {u t : Ty} {r : Record Ty} (h : t.container? = some r) (n : Nat) : Behind u (n + 1) t := by
  cases t with
  | struct | uniform | storage => trivial
  | _ => cases h

theorem Behind.of_path {Γ : List Referent} {t u : Ty} {es : List Expr} (h : Expr.IndexPath Γ t es u) :
    Behind u es.length t := by
  induction h with
  | nil => rfl
  | cons _ hstep _ ih =>
    cases hstep with
    | vector => exact ih
    | matrix => exact ih
    | array => trivial
    | member ht => exact .of_container ht _

end Ty

namespace Expr

/-- Is the type of an expression that of its values, given the types of constants and of what it is made of? -/
def Derived (Γ : Int → Ty → Prop) : Expr → Prop
  | .absent | .name .. | .member .. | .method .. => False
  | .literal i v => v.HasType i.type
  | .const i id => Γ id i.type
  | .typeRef i t => i.type = t
  | .unary i _ e => i.type = e.type
  | .binary i op l r => l.type.binary op r.type = .ok i.type
  | .ternary i _ t f => t.type.same f.type ∧ i.type = t.type
  | .cast i target _ => ∃ j, target = .typeRef j i.type
  | .swizzle i base s =>
    ∃ p, base.type.scalarOrVector? = some p ∧ (1 ≤ s.count ∧ s.count ≤ 4) ∧ i.type = Ty.vectorOf p s.count
  | .index i base indices => Ty.Behind i.type indices.length base.type
  | _ => True

end Expr

namespace Stmt

/-- Are all conditions booleans? A variable has a type or a value. -/
@[simp] def Decided : Stmt → Prop
  | .letVar _ d => d.type.isPresent ∨ d.init.isPresent
  | .branch _ _ arms _ => ∀ a ∈ arms, a.1.type.isBool
  | .conditional _ c _ => c.type.isBool
  | .loop _ c _ _ => c.type.isBool
  | _ => True

end Stmt

/-- The types of the constants that can be referred to. -/
def Referent.Typing (Γ : List Referent) (id : Int) (t : Ty) : Prop := ∃ v, Referent.constant id t v ∈ Γ

def Node.Sound (Γ : Int → Ty → Prop) : Node → Prop
  | .expr e => e.type.Proper ∧ e.Derived Γ
  | .stmt s => s.Decided

/-- Is every type in an expression proper and derived from those of what it is made of? -/
def Expr.Sound (Γ : Int → Ty → Prop) (e : Expr) : Prop := ∀ n ∈ e.nodes, n.Sound Γ

/-- Is every type in a statement proper and derived from those of what it is made of? -/
def Stmt.Sound (Γ : Int → Ty → Prop) (s : Stmt) : Prop := ∀ n ∈ s.nodes, n.Sound Γ

/-- A condition: a boolean that is sound. -/
structure Expr.Decides (Γ : Int → Ty → Prop) (c : Expr) : Prop where
  bool : c.type.isBool
  sound : c.Sound Γ

variable {Γ Δ : Int → Ty → Prop}

theorem Expr.Derived.mono (hsub : ∀ {id t}, Γ id t → Δ id t) {e : Expr} (h : e.Derived Γ) : e.Derived Δ := by
  cases e with
  | const i id => exact hsub h
  | _ => exact h

theorem Node.Sound.mono (hsub : ∀ {id t}, Γ id t → Δ id t) {n : Node} (h : n.Sound Γ) : n.Sound Δ := by
  cases n with
  | expr e => exact ⟨h.1, h.2.mono hsub⟩
  | stmt s => exact h

/-- What follows the rules of typing is sound. -/
theorem Expr.Consistent.derived {Γ : List Referent} {e : Expr} (h : e.Consistent Γ) :
    e.Derived (Referent.Typing Γ) := by
  cases e with
  | const i id => exact h
  | typeRef i t => exact h.1
  | unary i op e => exact (Ty.unary_ok h).2
  | ternary i c t f => exact h.2
  | cast i target args => exact h.1
  | swizzle i base s =>
    obtain ⟨p, hp, hcount, -, htype⟩ := h
    exact ⟨p, hp, hcount, htype⟩
  | index i base indices => exact .of_path h
  | absent | name | member | method => exact h
  | literal | binary => exact h
  | _ => trivial

theorem Expr.Checked.sound {p : Place} {e : Expr} (h : e.Checked p) : e.Sound (Referent.Typing p.context) := by
  intro n hn
  have hvalid := h.of_mem_nodes hn
  cases n with
  | expr c => exact ⟨hvalid.1, hvalid.2.1.derived⟩
  | stmt s =>
    have hmem : s ∈ e.nodes.filterMap Node.stmt? := List.mem_filterMap.mpr ⟨_, hn, rfl⟩
    rw [Expr.filterMap_stmt_nodes] at hmem
    cases hmem

namespace Expr.Sound

variable {e c : Expr}

theorem absent : Expr.absent.Sound Γ := fun _ hn => absurd hn List.not_mem_nil

theorem of_isAbsent (h : e.isAbsent) : e.Sound Γ := by
  cases e with
  | absent => exact absent
  | _ => cases h

theorem mk (hproper : e.type.Proper) (hderived : e.Derived Γ) (hchildren : ∀ c ∈ e.children, c.Sound Γ) :
    e.Sound Γ := by
  have hpresent : e.isAbsent = false := by
    cases e with
    | absent => exact hderived.elim
    | _ => rfl
  exact (forall_nodes hpresent).mpr ⟨⟨hproper, hderived⟩, hchildren⟩

theorem mono (hsub : ∀ {id t}, Γ id t → Δ id t) (h : e.Sound Γ) : e.Sound Δ := fun n hn => (h n hn).mono hsub

theorem proper (h : e.Sound Γ) (hpresent : e.isAbsent = false) : e.type.Proper := (h _ (mem_nodes_self hpresent)).1

theorem derived (h : e.Sound Γ) (hpresent : e.isAbsent = false) : e.Derived Γ := (h _ (mem_nodes_self hpresent)).2

theorem child (h : e.Sound Γ) (hc : c ∈ e.children) : c.Sound Γ := nodes_child h hc

/-- What refers to something is made of nothing else. -/
theorem leaf (hproper : e.type.Proper) (hderived : e.Derived Γ) (hchildren : e.children = []) : e.Sound Γ :=
  mk hproper hderived fun _ hc => absurd (hchildren ▸ hc) List.not_mem_nil

theorem ofType {t : Ty} (span : Span) (h : t.Proper) : (Expr.ofType span t).Sound Γ := leaf h rfl rfl

theorem ofVar {t : Ty} (span : Span) (id : Int) (h : t.Proper) : (Expr.ofVar span id t).Sound Γ := leaf h trivial rfl

end Expr.Sound

namespace Stmt

@[simp] theorem sound_absent : Stmt.absent.Sound Γ := fun _ hn => absurd hn List.not_mem_nil

theorem sound_iff {s : Stmt} (h : s.isAbsent = false) :
    s.Sound Γ ↔ s.Decided ∧ (∀ e ∈ s.ownExprs, e.Sound Γ) ∧ ∀ c ∈ s.children, c.Sound Γ := forall_nodes h

theorem Sound.mono {s : Stmt} (hsub : ∀ {id t}, Γ id t → Δ id t) (h : s.Sound Γ) : s.Sound Δ := fun n hn => (h n hn).mono hsub

@[simp] theorem sound_expr (span : Span) (e : Expr) : (Stmt.expr span e).Sound Γ ↔ e.Sound Γ := by
  rw [sound_iff rfl]
  simp [ownExprs, children]

@[simp] theorem sound_letVar (span : Span) (d : VarDecl) :
    (Stmt.letVar span d).Sound Γ ↔ (d.type.isPresent ∨ d.init.isPresent) ∧ d.type.Sound Γ ∧ d.init.Sound Γ := by
  rw [sound_iff rfl]
  simp [ownExprs, children]

@[simp] theorem sound_const (span : Span) (d : ConstDecl) :
    (Stmt.const span d).Sound Γ ↔ d.type.Sound Γ ∧ d.value.Sound Γ ∧ d.exported.expr.Sound Γ := by
  rw [sound_iff rfl]
  simp [ownExprs, children]

@[simp] theorem sound_option (span : Span) (d : OptionDecl) :
    (Stmt.option span d).Sound Γ ↔ d.type.Sound Γ ∧ d.default.Sound Γ := by
  rw [sound_iff rfl]
  simp [ownExprs, children]

@[simp] theorem sound_alias (span : Span) (d : AliasDecl) :
    (Stmt.alias span d).Sound Γ ↔ d.target.Sound Γ ∧ d.exported.expr.Sound Γ := by
  rw [sound_iff rfl]
  simp [ownExprs, children]

@[simp] theorem sound_importFrom (span : Span) (name : Text) (items : List ImportItem) :
    (Stmt.importFrom span name items).Sound Γ := by
  rw [sound_iff rfl]
  simp [ownExprs, children]

@[simp] theorem sound_multi (span : Span) (body : List Stmt) :
    (Stmt.multi span body).Sound Γ ↔ ∀ s ∈ body, s.Sound Γ := by
  rw [sound_iff rfl]
  simp [ownExprs, children]

@[simp] theorem sound_scoped (span : Span) (body : Stmt) : (Stmt.scoped span body).Sound Γ ↔ body.Sound Γ := by
  rw [sound_iff rfl]
  simp [ownExprs, children]

@[simp] theorem sound_branch (span : Span) (isConst : Bool) (arms : List (Expr × Stmt)) (other : Stmt) :
    (Stmt.branch span isConst arms other).Sound Γ ↔
      (∀ a ∈ arms, a.1.Decides Γ ∧ a.2.Sound Γ) ∧ other.Sound Γ := by
  rw [sound_iff rfl]
  simp only [Decided, ownExprs, children, List.forall_mem_append, List.forall_mem_map, List.forall_mem_singleton]
  constructor
  · rintro ⟨hbool, hconds, hbodies, hother⟩
    exact ⟨fun a ha => ⟨⟨hbool a ha, hconds a ha⟩, hbodies a ha⟩, hother⟩
  · rintro ⟨harms, hother⟩
    exact ⟨fun a ha => (harms a ha).1.bool, fun a ha => (harms a ha).1.sound, fun a ha => (harms a ha).2, hother⟩

@[simp] theorem sound_conditional (span : Span) (c : Expr) (body : Stmt) :
    (Stmt.conditional span c body).Sound Γ ↔ c.Decides Γ ∧ body.Sound Γ := by
  rw [sound_iff rfl]
  simp only [Decided, ownExprs, children, List.forall_mem_singleton]
  exact ⟨fun ⟨hbool, hc, hbody⟩ => ⟨⟨hbool, hc⟩, hbody⟩, fun ⟨hc, hbody⟩ => ⟨hc.bool, hc.sound, hbody⟩⟩

@[simp] theorem sound_loop (span : Span) (c : Expr) (u : Attr Unroll) (body : Stmt) :
    (Stmt.loop span c u body).Sound Γ ↔ u.expr.Sound Γ ∧ c.Decides Γ ∧ body.Sound Γ := by
  rw [sound_iff rfl, ownExprs, children, List.forall_mem_cons, List.forall_mem_singleton, List.forall_mem_singleton]
  exact ⟨fun ⟨hbool, ⟨hu, hc⟩, hbody⟩ => ⟨hu, ⟨hbool, hc⟩, hbody⟩, fun ⟨hu, hc, hbody⟩ => ⟨hc.bool, ⟨hu, hc.sound⟩, hbody⟩⟩

@[simp] theorem sound_forRange (span : Span) (h : RangeHead) (body : Stmt) :
    (Stmt.forRange span h body).Sound Γ ↔
      (h.unroll.expr.Sound Γ ∧ h.start.Sound Γ ∧ h.stop.Sound Γ ∧ h.step.Sound Γ) ∧ body.Sound Γ := by
  rw [sound_iff rfl]
  simp [ownExprs, children]

@[simp] theorem sound_forEach (span : Span) (h : EachHead) (body : Stmt) :
    (Stmt.forEach span h body).Sound Γ ↔ (h.unroll.expr.Sound Γ ∧ h.array.Sound Γ) ∧ body.Sound Γ := by
  rw [sound_iff rfl]
  simp [ownExprs, children]

@[simp] theorem sound_returnWith (span : Span) (e : Expr) : (Stmt.returnWith span e).Sound Γ ↔ e.Sound Γ := by
  rw [sound_iff rfl]
  simp [ownExprs, children]

@[simp] theorem sound_noOp (span : Span) : (Stmt.noOp span).Sound Γ := by
  rw [sound_iff rfl]
  simp [ownExprs, children]

@[simp] theorem sound_discard (span : Span) : (Stmt.discard span).Sound Γ := by
  rw [sound_iff rfl]
  simp [ownExprs, children]

@[simp] theorem sound_breakLoop (span : Span) : (Stmt.breakLoop span).Sound Γ := by
  rw [sound_iff rfl]
  simp [ownExprs, children]

@[simp] theorem sound_continueLoop (span : Span) : (Stmt.continueLoop span).Sound Γ := by
  rw [sound_iff rfl]
  simp [ownExprs, children]

@[simp] theorem sound_block (span : Span) (body : List Stmt) : (block span body).Sound Γ ↔ ∀ s ∈ body, s.Sound Γ := by
  rw [block, sound_scoped, sound_multi]

end Stmt

end Shading
