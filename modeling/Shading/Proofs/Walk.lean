import Shading.Walk

/-! The nodes that a walk through a tree reaches. -/
namespace Shading

namespace Expr

/-- The expressions that an expression is made of. -/
def children : Expr → List Expr
  | .binary _ _ l r | .assign _ _ l r => [l, r]
  | .unary _ _ e | .member _ e _ | .swizzle _ e _ => [e]
  | .cast _ t as | .call _ t as | .index _ t as | .method _ t _ as => t :: as
  | .ternary _ c t f => [c, t, f]
  | .intrinsic _ _ as => as
  | _ => []

theorem filterMap_around (n : Node) (vs : List Visit) :
    (Visit.around (fun _ => true) n vs).filterMap Visit.node? = n :: vs.filterMap Visit.node? := by
  simp [Visit.around, List.filterMap_append, Visit.node?]

theorem filterMap_walkAll (es : List Expr) :
    (walkAll (fun _ => true) es).filterMap Visit.node? = es.flatMap Expr.nodes := by
  induction es with
  | nil => rfl
  | cons e es ih => rw [walkAll, List.filterMap_append, ih, List.flatMap_cons, Expr.nodes]

@[simp] theorem nodes_absent : Expr.absent.nodes = [] := rfl

theorem nodes_eq {e : Expr} (h : e.isAbsent = false) : e.nodes = .expr e :: e.children.flatMap Expr.nodes := by
  cases e with
  | absent => cases h
  | _ =>
    simp only [nodes, walk, filterMap_around, List.filterMap_append, filterMap_walkAll, children,
      List.flatMap_cons, List.flatMap_nil, List.append_nil, List.filterMap_nil, List.append_assoc]

theorem mem_nodes_self {e : Expr} (h : e.isAbsent = false) : .expr e ∈ e.nodes := by
  rw [nodes_eq h]
  exact List.mem_cons_self

theorem forall_nodes {P : Node → Prop} {e : Expr} (h : e.isAbsent = false) :
    (∀ n ∈ e.nodes, P n) ↔ P (.expr e) ∧ ∀ c ∈ e.children, ∀ n ∈ c.nodes, P n := by
  rw [nodes_eq h, List.forall_mem_cons, List.forall_mem_flatMap]

/-- What holds of all nodes holds of those of what an expression is made of. -/
theorem nodes_child {P : Node → Prop} {e c : Expr} (h : ∀ n ∈ e.nodes, P n) (hc : c ∈ e.children) :
    ∀ n ∈ c.nodes, P n := by
  have hpresent : e.isAbsent = false := by
    cases e with
    | absent => cases hc
    | _ => rfl
  exact ((forall_nodes hpresent).mp h).2 c hc

theorem sizeOf_children {e c : Expr} (h : c ∈ e.children) : sizeOf c < sizeOf e := by
  have hlist {as : List Expr} (hmem : c ∈ as) : sizeOf c < sizeOf as := List.sizeOf_lt_of_mem hmem
  cases e <;> simp only [children, List.mem_cons, List.not_mem_nil, or_false] at h <;> grind

/-- What holds of an expression if it holds of those that it is made of holds of every expression. -/
theorem induction_children {P : Expr → Prop} (h : ∀ e, (∀ c ∈ e.children, P c) → P e) (e : Expr) : P e :=
  h e fun c _ => induction_children h c
termination_by sizeOf e
decreasing_by exact sizeOf_children ‹_›

theorem filterMap_stmt_nodes (e : Expr) : e.nodes.filterMap Node.stmt? = [] := by
  induction e using induction_children with
  | h e ih =>
    cases he : e.isAbsent with
    | true =>
      cases e with
      | absent => rfl
      | _ => cases he
    | false =>
      rw [nodes_eq he, List.filterMap_cons_none rfl, List.filterMap_flatMap, List.flatMap_eq_nil_iff]
      exact ih

end Expr

namespace Stmt

/-- The statements directly inside a statement. -/
def children : Stmt → List Stmt
  | .function _ _ body | .multi _ body => body
  | .branch _ _ arms other => arms.map (·.2) ++ [other]
  | .conditional _ _ body | .forRange _ _ body | .forEach _ _ body | .loop _ _ _ body | .scoped _ body => [body]
  | _ => []

def memberExprs (m : StructMember) : List Expr := [m.type, m.builtin.expr, m.location.expr, m.cond]

def externalExprs (v : External) : List Expr := [v.type, v.set.expr, v.binding.expr]

def headExprs (h : FnHead) : List Expr :=
  [h.stage.expr, h.earlyTests.expr, h.depthWrite.expr, h.workgroup.expr, h.exported.expr] ++
    h.params.map (·.type) ++ [h.result]

/-- The expressions of a statement that belong to no statement inside it. -/
def ownExprs : Stmt → List Expr
  | .expr _ e | .returnWith _ e => [e]
  | .letVar _ d => [d.type, d.init]
  | .const _ d => [d.type, d.value, d.exported.expr]
  | .alias _ d => [d.target, d.exported.expr]
  | .option _ d => [d.type, d.default]
  | .struct _ d => d.exported.expr :: d.layout.expr :: d.members.flatMap memberExprs
  | .function _ h _ => headExprs h
  | .external _ set vars => set.expr :: vars.flatMap externalExprs
  | .branch _ _ arms _ => arms.map (·.1)
  | .conditional _ c _ => [c]
  | .forRange _ h _ => [h.unroll.expr, h.start, h.stop, h.step]
  | .forEach _ h _ => [h.unroll.expr, h.array]
  | .loop _ c u _ => [u.expr, c]
  | _ => []

theorem filterMap_expr (e : Expr) : (e.walk fun _ => true).filterMap Visit.node? = e.nodes := rfl

theorem filterMap_attr {α : Type} (a : Attr α) :
    (a.walk fun _ => true).filterMap Visit.node? = a.expr.nodes := rfl

theorem filterMap_walk (s : Stmt) : (s.walk fun _ => true).filterMap Visit.node? = s.nodes := rfl

theorem filterMap_walkAll (ss : List Stmt) :
    (walkAll (fun _ => true) ss).filterMap Visit.node? = ss.flatMap Stmt.nodes := by
  induction ss with
  | nil => rfl
  | cons s ss ih => rw [walkAll, List.filterMap_append, ih, List.flatMap_cons, Stmt.nodes]

theorem filterMap_members (ms : List StructMember) :
    (ms.flatMap (walkMember fun _ => true)).filterMap Visit.node? =
      (ms.flatMap memberExprs).flatMap Expr.nodes := by
  induction ms with
  | nil => rfl
  | cons m ms ih =>
    simp only [List.flatMap_cons, List.filterMap_append, ih, walkMember, filterMap_expr, filterMap_attr,
      memberExprs, List.flatMap_append, List.flatMap_nil, List.append_assoc, List.append_nil]

theorem filterMap_externals (vs : List External) :
    (vs.flatMap (walkExternal fun _ => true)).filterMap Visit.node? =
      (vs.flatMap externalExprs).flatMap Expr.nodes := by
  induction vs with
  | nil => rfl
  | cons v vs ih =>
    simp only [List.flatMap_cons, List.filterMap_append, ih, walkExternal, filterMap_expr, filterMap_attr,
      externalExprs, List.flatMap_append, List.flatMap_nil, List.append_assoc, List.append_nil]

theorem filterMap_params (ps : List FnParam) :
    (ps.flatMap fun p => p.type.walk fun _ => true).filterMap Visit.node? =
      (ps.map FnParam.type).flatMap Expr.nodes := by
  induction ps with
  | nil => rfl
  | cons p ps ih =>
    simp only [List.flatMap_cons, List.filterMap_append, ih, filterMap_expr, List.map_cons]

def isBranch : Stmt → Bool
  | .branch .. => true
  | _ => false

theorem nodes_eq {s : Stmt} (h : s.isAbsent = false) (hb : s.isBranch = false) :
    s.nodes = .stmt s :: (s.ownExprs.flatMap Expr.nodes ++ s.children.flatMap Stmt.nodes) := by
  cases s with
  | absent => cases h
  | branch => cases hb
  | _ =>
    rw [nodes, walk, Expr.filterMap_around]
    simp only [List.filterMap_append, filterMap_expr, filterMap_attr, filterMap_walk, filterMap_walkAll,
      filterMap_members, filterMap_externals, filterMap_params, walkHead, headExprs, ownExprs, children,
      List.flatMap_cons, List.flatMap_append, List.flatMap_nil, List.filterMap_nil, List.append_nil, List.nil_append,
      List.append_assoc]

theorem mem_walkArms (arms : List (Expr × Stmt)) (n : Node) :
    n ∈ (walkArms (fun _ => true) arms).filterMap Visit.node? ↔
      (∃ e ∈ arms.map (·.1), n ∈ e.nodes) ∨ ∃ s ∈ arms.map (·.2), n ∈ s.nodes := by
  induction arms with
  | nil => simp [walkArms]
  | cons a arms ih =>
    obtain ⟨c, s⟩ := a
    simp only [walkArms, List.filterMap_append, List.mem_append, ih, List.map_cons, List.mem_cons, filterMap_expr,
      filterMap_walk]
    grind

/-- A walk reaches the statement itself, its expressions and what is inside it. -/
theorem mem_nodes {s : Stmt} (h : s.isAbsent = false) {n : Node} : n ∈ s.nodes ↔
    n = .stmt s ∨ (∃ e ∈ s.ownExprs, n ∈ e.nodes) ∨ ∃ c ∈ s.children, n ∈ c.nodes := by
  cases hb : s.isBranch with
  | false =>
    rw [nodes_eq h hb, List.mem_cons, List.mem_append, List.mem_flatMap, List.mem_flatMap]
  | true =>
    cases s with
    | branch s c arms other =>
      rw [nodes, walk, Expr.filterMap_around, List.mem_cons, List.filterMap_append, List.mem_append, mem_walkArms,
        filterMap_walk]
      simp only [ownExprs, children, List.mem_append, List.mem_singleton]
      grind
    | _ => cases hb

theorem forall_nodes {P : Node → Prop} {s : Stmt} (h : s.isAbsent = false) : (∀ n ∈ s.nodes, P n) ↔
    P (.stmt s) ∧ (∀ e ∈ s.ownExprs, ∀ n ∈ e.nodes, P n) ∧ ∀ c ∈ s.children, ∀ n ∈ c.nodes, P n := by
  constructor
  · intro hP
    refine ⟨hP _ ((mem_nodes h).mpr (.inl rfl)), fun e he n hn => ?_, fun c hc n hn => ?_⟩
    · exact hP n ((mem_nodes h).mpr (.inr (.inl ⟨e, he, hn⟩)))
    · exact hP n ((mem_nodes h).mpr (.inr (.inr ⟨c, hc, hn⟩)))
  · rintro ⟨hself, hexprs, hchildren⟩ n hn
    rcases (mem_nodes h).mp hn with rfl | ⟨e, he, hn⟩ | ⟨c, hc, hn⟩
    · exact hself
    · exact hexprs e he n hn
    · exact hchildren c hc n hn

/-- What holds of all nodes holds of those of the expressions of a statement. -/
theorem nodes_own {P : Node → Prop} {s : Stmt} {e : Expr} (h : ∀ n ∈ s.nodes, P n) (he : e ∈ s.ownExprs) :
    ∀ n ∈ e.nodes, P n := by
  have hpresent : s.isAbsent = false := by
    cases s with
    | absent => cases he
    | _ => rfl
  exact ((forall_nodes hpresent).mp h).2.1 e he

/-- What holds of all nodes holds of those of the statements inside a statement. -/
theorem nodes_child {P : Node → Prop} {s c : Stmt} (h : ∀ n ∈ s.nodes, P n) (hc : c ∈ s.children) :
    ∀ n ∈ c.nodes, P n := by
  have hpresent : s.isAbsent = false := by
    cases s with
    | absent => cases hc
    | _ => rfl
  exact ((forall_nodes hpresent).mp h).2.2 c hc

theorem sizeOf_children {s c : Stmt} (h : c ∈ s.children) : sizeOf c < sizeOf s := by
  have hlist {ss : List Stmt} (hmem : c ∈ ss) : sizeOf c < sizeOf ss := List.sizeOf_lt_of_mem hmem
  cases s with
  | branch s k arms other =>
    simp only [children, List.mem_append, List.mem_map, List.mem_singleton] at h
    rcases h with ⟨⟨e, c'⟩, harm, rfl⟩ | rfl
    · have harms := List.sizeOf_lt_of_mem harm
      simp only [Prod.mk.sizeOf_spec, branch.sizeOf_spec] at harms ⊢
      omega
    · simp only [branch.sizeOf_spec]
      omega
  | _ => simp only [children, List.mem_cons, List.not_mem_nil, or_false] at h <;> grind

/-- What holds of a statement if it holds of those inside it holds of every statement. -/
theorem induction_children {P : Stmt → Prop} (h : ∀ s, (∀ c ∈ s.children, P c) → P s) (s : Stmt) : P s :=
  h s fun c _ => induction_children h c
termination_by sizeOf s
decreasing_by exact sizeOf_children ‹_›

end Stmt
end Shading
