import Shading.Check.Attributes
import Shading.Proofs.Check.Conversion

/-! Checked expressions. An expression of a source that is not refused has a type, and so has everything
that it is made of. -/
namespace Shading

theorem Value.hasType_of_isScalar {v : Value} (h : v.isScalar) : v.type.Proper ∧ v.HasType v.type := by
  cases v with
  | bool | i32 | u32 | f32 | f64 =>
    refine ⟨?_, rfl⟩
    simp [Value.type, Ty.Proper, Primitive.named]
  | _ => cases h

namespace Check

theorem delivers_literal {P : Place → Prop} (i : ExprInfo) {v : Value} (hv : v.isScalar) :
    Delivers P (reference (.literal i v)) fun p e => e.Checked p := by
  refine .of_reads lasting_checked fun {site σ e σ'} h => ?_
  obtain ⟨rfl, hchecked⟩ := reference_ok h
  exact ⟨rfl, fun p hsees _ => hchecked p hsees (Value.hasType_of_isScalar hv)⟩

mutual

theorem delivers_typeOf {P : Place → Prop} (e : Expr) (he : e.Written) :
    Delivers P (typeOf? e) fun p r => ∀ t, r = some t → Known p.context t := by
  unfold typeOf?
  split
  · exact (he.self rfl).elim
  · exact (he.self rfl).elim
  · refine .bind (.of_reads_only .getDraft) fun d => ?_
    exact delivers_namedType _ _ _
  · rename_i i j n args
    refine .bind (delivers_constructor n) fun r => ?_
    split
    · rename_i c
      have hargs : ∀ a ∈ args, a.Written := fun a ha => he.child (by simp [Expr.children, ha])
      refine .bind (delivers_constructedType c n i.span args hargs fun p hp => hp.2 c rfl) fun t => ?_
      refine .pure fun p hp u hu => ?_
      cases hu
      exact hp.2
    · exact .pure fun _ _ t ht => (by cases ht)
  · exact .pure fun _ _ t ht => (by cases ht)
termination_by sizeOf e
decreasing_by
  subst_vars
  rw [Expr.index.sizeOf_spec]
  omega

theorem delivers_constructedType {P : Place → Prop} (c : TypeConstructor) (name : Text) (span : Span) (args : List Expr)
    (hargs : ∀ a ∈ args, a.Written) (hc : ∀ p, P p → c.Sized) :
    Delivers P (constructedType c name span args) fun p t => Known p.context t := by
  unfold constructedType
  split
  · rename_i e
    refine .bind (delivers_typeOf e (hargs e List.mem_cons_self)) fun r => ?_
    refine .bind (delivers_asType e fun p hp => hp.2) fun t => ?_
    exact delivers_constructed name span e.span fun p hp => ⟨hc p hp.1.1, hp.2⟩
  · rename_i e size
    split
    · refine .bind (delivers_typeOf e (hargs e (by simp))) fun r => ?_
      refine .bind (delivers_asType e fun p hp => hp.2) fun t => ?_
      split
      · rename_i hunknown
        refine .pure fun p hp => ?_
        simp [hp.2.1.isKnown] at hunknown
      · refine .bind (delivers_expression size (hargs size (by simp))) fun checked => ?_
        refine .bind (delivers_unsignedOf _ _ fun p hp => hp.2) fun n => ?_
        simp only [reject_bind]
        split
        · exact .reject
        · exact .pure fun p hp => hp.1.1.2
    · exact .reject
    · exact .reject
  · split
    · exact .reject
    · exact .reject
termination_by sizeOf args
decreasing_by
  all_goals
    subst_vars
    simp only [List.cons.sizeOf_spec]
    omega

/-- The result of checking an expression is checked. -/
theorem delivers_expression {P : Place → Prop} (e : Expr) (he : e.Written) :
    Delivers P (expression e) fun p e => e.Checked p := by
  unfold expression
  split
  case h_1 => exact .reject
  case h_2 i n => exact delivers_named i n
  case h_3 i v => exact delivers_literal i (he.self rfl)
  case h_10 i op l r =>
    refine .bind (delivers_expression l (he.child (by simp [Expr.children]))) fun l' => ?_
    refine .bind (delivers_expression r (he.child (by simp [Expr.children]))) fun r' => ?_
    exact delivers_binary i op fun p hp => ⟨hp.1.2, hp.2⟩
  case h_11 i op e =>
    refine .bind (delivers_expression e (he.child (by simp [Expr.children]))) fun e' => ?_
    exact delivers_unary i op fun p hp => hp.2
  case h_12 i op l r =>
    refine .bind (delivers_expression l (he.child (by simp [Expr.children]))) fun l' => ?_
    refine .bind (delivers_expression r (he.child (by simp [Expr.children]))) fun r' => ?_
    exact delivers_assign i op fun p hp => ⟨hp.1.2, hp.2⟩
  case h_14 i c t f =>
    refine .bind (delivers_expression c (he.child (by simp [Expr.children]))) fun c' => ?_
    refine .bind (delivers_requireBool _ fun p hp => hp.2) fun _ => ?_
    refine .bind (delivers_expression t (he.child (by simp [Expr.children]))) fun t' => ?_
    refine .bind (delivers_expression f (he.child (by simp [Expr.children]))) fun f' => ?_
    exact delivers_ternary i fun p hp => ⟨hp.1.1.2, hp.1.1.1.2, hp.1.2, hp.2⟩
  case h_15 i base indices =>
    have hbase : base.Written := he.child (by simp [Expr.children])
    have hindices : ∀ a ∈ indices, a.Written := fun a ha => he.child (by simp [Expr.children, ha])
    have access {P' : Place → Prop} : Delivers P' (do
        let base ← expression base
        let indices ← expressions indices
        indexed i base indices) fun p e => e.Checked p := by
      refine .bind (delivers_expression base hbase) fun base' => ?_
      refine .bind (delivers_expressions indices hindices) fun indices' => ?_
      exact delivers_indexed i fun p hp => ⟨hp.1.2, hp.2⟩
    dsimp only
    split
    · rename_i n
      refine .bind (delivers_constructor n) fun r => ?_
      cases r with
      | none => exact access
      | some c =>
        show Delivers _ (do return Expr.ofType i.span (← constructedType c n i.span indices)) _
        refine .bind (delivers_constructedType c n i.span indices hindices fun p hp => hp.2 c rfl) fun t => ?_
        exact .pure fun p hp => Expr.checked_ofType _ hp.2
    · exact access
  case h_16 i base names =>
    refine .bind (delivers_expression base (he.child (by simp [Expr.children]))) fun base' => ?_
    exact delivers_membersOf i names fun p hp => hp.2
  case h_18 i target args =>
    have hargs : ∀ a ∈ args, a.Written := fun a ha => he.child (by simp [Expr.children, ha])
    refine .bind (delivers_typeOf target (he.child (by simp [Expr.children]))) fun r => ?_
    split
    · rename_i t
      refine .bind (delivers_expressions args hargs) fun args' => ?_
      exact delivers_cast _ _ fun p hp => ⟨hp.1.2 t rfl, hp.2⟩
    · refine .bind (delivers_expression target (he.child (by simp [Expr.children]))) fun target' => ?_
      refine .bind (delivers_expressions args hargs) fun args' => ?_
      exact delivers_call i fun p hp => ⟨hp.1.2, hp.2⟩
  case h_19 i object name args =>
    have hargs : ∀ a ∈ args, a.Written := fun a ha => he.child (by simp [Expr.children, ha])
    refine .bind (delivers_expression object (he.child (by simp [Expr.children]))) fun object' => ?_
    refine .bind (delivers_expressions args hargs) fun args' => ?_
    exact delivers_methodCall i name fun p hp => ⟨hp.1.2, hp.2⟩
  all_goals exact (he.self rfl).elim
termination_by sizeOf e
decreasing_by
  all_goals
    subst_vars
    simp only [Expr.binary.sizeOf_spec, Expr.unary.sizeOf_spec, Expr.assign.sizeOf_spec, Expr.ternary.sizeOf_spec,
      Expr.index.sizeOf_spec, Expr.member.sizeOf_spec, Expr.call.sizeOf_spec, Expr.method.sizeOf_spec]
    omega

theorem delivers_expressions {P : Place → Prop} (es : List Expr) (hes : ∀ e ∈ es, e.Written) :
    Delivers P (expressions es) fun p es => ∀ e ∈ es, e.Checked p := by
  cases es with
  | nil => exact .pure fun _ _ e he => (by cases he)
  | cons e es =>
    rw [List.forall_mem_cons] at hes
    refine .bind (delivers_expression e hes.1) fun e' => ?_
    refine .bind (delivers_expressions es hes.2) fun es' => ?_
    exact .pure fun p hp => List.forall_mem_cons.mpr ⟨hp.1.2, hp.2⟩
termination_by sizeOf es
decreasing_by
  all_goals
    subst_vars
    simp only [List.cons.sizeOf_spec]
    omega

end

/-- An annotation stands for a known type. -/
theorem delivers_typeNote {P : Place → Prop} (e : Expr) (he : e.Written) :
    Delivers P ( annotation e) fun p r => Known p.context r.1 ∧ r.2 = .ofType e.span r.1 := by
  refine .bind (delivers_typeOf e he) fun r => ?_
  refine .bind (delivers_asType e fun p hp => hp.2) fun t => ?_
  refine .pure fun p hp => ⟨hp.2, ?_⟩
  simp [hp.2.1.isKnown]

end Check

end Shading

-- Checked attributes. Their values are known, and nothing is left of what was written.
namespace Shading.Check

variable {P : Place → Prop} {α : Type}

theorem absent_of_isAbsent {e : Expr} (h : e.isAbsent = true) : e = .absent := by
  cases e with
  | absent => rfl
  | _ => cases h

theorem reads_nameArgument (e : Expr) : Reads (nameArgument e) := by
  unfold nameArgument
  split
  · exact .pure _
  · exact .reject _ _

theorem delivers_choice (a : Attr α) (ofName? : Text → Option α) (unknown : Text → Rejection) :
    Delivers P (choice a ofName? unknown) fun _ r => r.expr = .absent := by
  unfold choice
  split
  · rename_i habsent
    exact .pure fun _ _ => absent_of_isAbsent habsent
  · refine .bind (.of_reads_only (reads_nameArgument _)) fun name => ?_
    split
    · exact .pure fun _ _ => rfl
    · exact .reject

theorem delivers_constantArgument (e : Expr) (what : Text) (he : e.Written) :
    Delivers P (constantArgument e what) fun _ _ => True := by
  refine .bind (delivers_expression e he) fun e' => ?_
  exact (delivers_constantOf _ _ fun p hp => hp.2).post fun _ _ _ => trivial

theorem delivers_boolAttr (a : Attr Bool) (ha : a.expr.Written) :
    Delivers P (boolAttr a) fun _ r => r.expr = .absent := by
  unfold boolAttr
  split
  · rename_i habsent
    exact .pure fun _ _ => absent_of_isAbsent habsent
  · refine .bind (delivers_constantArgument _ _ ha) fun v => ?_
    split
    · exact .pure fun _ _ => rfl
    · exact .reject

theorem delivers_unsignedAttr (a : Attr UInt32) (what : Text) (ha : a.expr.Written) :
    Delivers P (unsignedAttr a what) fun _ r => r.expr = .absent := by
  unfold unsignedAttr
  split
  · rename_i habsent
    exact .pure fun _ _ => absent_of_isAbsent habsent
  · refine .bind (delivers_expression _ ha) fun e => ?_
    refine .bind (delivers_unsignedOf _ _ fun p hp => hp.2) fun n => ?_
    exact .pure fun _ _ => rfl

theorem reads_addSizes (span : Span) (vs : List Value) (sizes : List UInt32) : Reads (addSizes span vs sizes) := by
  induction vs generalizing sizes with
  | nil => exact .pure _
  | cons v vs ih =>
    unfold addSizes
    split
    · simp only [reject_bind]
      split
      · exact .reject _ _
      · split
        · exact .reject _ _
        · exact ih _
    · exact .reject _ _

theorem delivers_workgroupSizes (es : List Expr) (hes : ∀ e ∈ es, e.Written) (sizes : List UInt32) :
    Delivers P (workgroupSizes es sizes) fun _ _ => True := by
  induction es generalizing sizes P with
  | nil => exact .pure fun _ _ => trivial
  | cons e es ih =>
    rw [List.forall_mem_cons] at hes
    refine .bind (delivers_constantArgument e _ hes.1) fun v => ?_
    dsimp only
    split
    all_goals
      refine .bind (.of_reads_only (reads_addSizes _ _ _)) fun sizes' => ?_
      exact ih hes.2 sizes'

theorem delivers_workgroupAttr (a : Attr (UInt32 × UInt32 × UInt32)) (ha : a.expr.Written) :
    Delivers P (workgroupAttr a) fun _ r => r.expr = .absent := by
  unfold workgroupAttr
  split
  · rename_i habsent
    exact .pure fun _ _ => absent_of_isAbsent habsent
  · dsimp only
    split
    · rename_i i t args hcall
      rw [hcall] at ha
      refine .bind (delivers_workgroupSizes args (fun e he => ha.child (by simp [Expr.children, he])) []) fun sizes => ?_
      exact .pure fun _ _ => rfl
    · refine .bind (delivers_workgroupSizes [_] (List.forall_mem_singleton.mpr ha) []) fun sizes => ?_
      exact .pure fun _ _ => rfl

/-- The attributes of a function are known, and its name is as it was. -/
structure Resolved (h r : FnHead) : Prop where
  stage : r.stage.expr = .absent
  earlyTests : r.earlyTests.expr = .absent
  depthWrite : r.depthWrite.expr = .absent
  workgroup : r.workgroup.expr = .absent
  exported : r.exported.expr = .absent
  name : r.name = h.name

theorem delivers_functionAttributes (span : Span) (h : FnHead) (hh : ∀ e ∈ Stmt.headExprs h, e.Written) :
    Delivers P (functionAttributes span h) fun _ r => Resolved h r := by
  unfold functionAttributes
  refine .bind (delivers_choice _ _ _) fun stage => ?_
  refine .bind (delivers_boolAttr _ (hh _ (by simp [Stmt.headExprs]))) fun earlyTests => ?_
  refine .bind (delivers_choice _ _ _) fun depthWrite => ?_
  refine .bind (delivers_workgroupAttr _ (hh _ (by simp [Stmt.headExprs]))) fun workgroup => ?_
  refine .bind (delivers_boolAttr _ (hh _ (by simp [Stmt.headExprs]))) fun exported => ?_
  simp only [reject_bind]
  split
  · exact .reject
  split
  · exact .reject
  split
  · exact .reject
  split
  · exact .reject
  refine .pure fun p hp => ?_
  obtain ⟨⟨⟨⟨⟨_, hstage⟩, hearly⟩, hdepth⟩, hworkgroup⟩, hexported⟩ := hp
  exact ⟨hstage, hearly, hdepth, hworkgroup, hexported, rfl⟩

end Shading.Check
