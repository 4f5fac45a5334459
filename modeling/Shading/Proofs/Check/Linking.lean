import Shading.Proofs.Check.Linked
import Shading.Proofs.Check.Tracing

/-! Checks inside functions of trees without names. They add no calls: what comes from them, and what they put before
a statement, calls no other functions. -/
namespace Shading.Check

variable {α β : Type} {F : Int → Prop}

/-- What is to stand before the current statement is linked. -/
def State.Linked (F : Int → Prop) (σ : State) : Prop := ∀ s ∈ σ.draft.pending, s.Linked F

/-- A check whose result has a property, and which keeps what stands before the current statement linked. -/
structure Links (F : Int → Prop) (x : Check α) (Q : α → Prop) : Prop where
  run : ∀ {site σ a σ'}, site.function.isSome → σ.Linked F → x site σ = .ok (a, σ') → σ'.Linked F ∧ Q a

namespace Links

variable {x : Check α} {P Q : α → Prop} {R : β → Prop}

theorem pure {a : α} (h : Q a) : Links F (Pure.pure a) Q := by
  refine ⟨fun _ hσ hx => ?_⟩
  obtain ⟨rfl, rfl⟩ := pure_ok.mp hx
  exact ⟨hσ, h⟩

theorem reject {span : Span} {r : Rejection} : Links F (Check.reject span r : Check α) Q :=
  ⟨fun _ _ hx => (reject_ok.mp hx).elim⟩

theorem bind {f : α → Check β} (hx : Links F x P) (hf : ∀ a, P a → Links F (f a) R) : Links F (x >>= f) R := by
  refine ⟨fun hsite hσ h => ?_⟩
  obtain ⟨a, σ₁, hrun, hrest⟩ := bind_ok.mp h
  obtain ⟨hσ₁, ha⟩ := hx.run hsite hσ hrun
  exact (hf a ha).run hsite hσ₁ hrest

theorem of_reads (hx : Reads x) : Links F x fun _ => True := by
  refine ⟨fun _ hσ h => ?_⟩
  rw [hx.run h]
  exact ⟨hσ, trivial⟩

/-- What is read first changes nothing. -/
theorem reading {f : α → Check β} (hx : Reads x) (hf : ∀ a, Links F (f a) R) : Links F (x >>= f) R :=
  .bind (.of_reads hx) fun a _ => hf a

theorem modifySession {f : Session → Session} : Links F (Check.modifySession f) fun _ => True := by
  refine ⟨fun _ hσ h => ?_⟩
  rw [modifySession_ok.mp h]
  exact ⟨hσ, trivial⟩

/-- A change of what belongs to a module, other than the statements that are put before the current one. -/
theorem redraft {f : Draft → Draft} (h : ∀ d, (f d).pending = d.pending) :
    Links F (Check.modifyDraft f) fun _ => True := by
  refine ⟨fun {site σ u σ'} _ hσ hx => ?_⟩
  rw [modifyDraft_ok.mp hx]
  exact ⟨fun s hs => hσ s (h σ.draft ▸ hs), trivial⟩

theorem withReader {f : Site → Site} (hf : ∀ s, (f s).function = s.function) (hx : Links F x Q) :
    Links F (MonadWithReader.withReader f x) Q :=
  ⟨fun {site _ _ _} hsite hσ h => hx.run (by rwa [hf site]) hσ (withReader_ok.mp h)⟩

theorem inScope (hx : Links F x Q) : Links F (inScope x) Q :=
  .bind (.redraft fun _ => rfl) fun _ _ => .bind hx fun _ ha => .bind (.redraft fun _ => rfl) fun _ _ => .pure ha

theorem collecting (hx : Links F x Q) : Links F (collecting x) fun r => (∀ s ∈ r.1, s.Linked F) ∧ Q r.2 := by
  refine ⟨fun {site σ r σ'} hsite hσ h => ?_⟩
  obtain ⟨σ₁, hrun, hpending, rfl⟩ := collecting_ok h
  obtain ⟨hσ₁, hr⟩ := hx.run hsite (σ := σ.withPending []) (fun _ hs => absurd hs List.not_mem_nil) hrun
  exact ⟨hσ, hpending ▸ hσ₁, hr⟩

end Links

theorem links_declare (name : Text) (span : Span) (b : Binding) : Links F (declare name span b) fun _ => True := by
  refine .reading .getDraft fun d => .reading .read fun site => ?_
  split
  · exact .redraft fun _ => rfl
  split
  · exact .redraft fun _ => rfl
  · exact .reject

theorem links_publish (name : Text) (exported : Attr Bool) (b : Binding) (span : Span) :
    Links F (publish name exported b span) fun _ => True := by
  unfold publish
  simp only [reject_bind]
  split
  · refine .reading .read fun site => ?_
    split
    · exact .reject
    · exact .redraft fun _ => rfl
  · exact .pure trivial

/-- A number is kept, or the next one of its kind is given out. -/
theorem links_number (id : Int) (next : Session → Int) (f : Int → Session → Session) :
    Links F (do
      if id != 0 then return id
      let n := next (← getSession)
      modifySession (f n)
      return n) fun _ => True := by
  dsimp only
  split
  · exact .pure trivial
  · exact .reading .getSession fun s => .bind .modifySession fun _ _ => .pure trivial

theorem links_variableId (id : Int) : Links F (variableId id) fun _ => True :=
  links_number id (·.nextVar) fun n s => { s with nextVar := Serial.next n }

theorem links_constantId (id : Int) : Links F (constantId id) fun _ => True :=
  links_number id (·.nextConst) fun n s => { s with nextConst := Serial.next n }

theorem links_aliasId (id : Int) : Links F (aliasId id) fun _ => True :=
  links_number id (·.nextAlias) fun n s => { s with nextAlias := Serial.next n }

theorem links_declareLocal (name : Text) (id : Int) (t : Ty) : Links F (declareLocal name id t) fun _ => True := by
  refine .bind .modifySession fun _ _ => .reading .getDraft fun d => ?_
  split
  · exact .bind (.redraft fun _ => rfl) fun _ _ => .pure trivial
  · exact .pure trivial

section

variable {e l r : Expr} {args : List Expr}

/-- A reference stays a reference to the same declaration. -/
theorem links_reference (h : e.Linked F) : Links F (reference e) (Expr.Linked F) := by
  unfold reference
  split
  case h_2 | h_3 | h_4 =>
    refine .reading .getSession fun s => ?_
    split
    · exact .pure (by simp)
    · exact .reject
  case h_5 => exact .reading (reads_structType _ _) fun t => .pure (by simp)
  case h_8 => exact .pure h
  all_goals exact .pure (by simp)

theorem links_functionReference (i : ExprInfo) (id : Int) :
    Links F (reference (.function i id)) fun e => ∃ j, e = .function j id := by
  refine .reading .getSession fun s => ?_
  split
  · exact .pure ⟨_, rfl⟩
  · exact .reject

theorem links_binary (i : ExprInfo) (op : BinaryOp) (hl : l.Linked F) (hr : r.Linked F) :
    Links F (binary i op l r) (Expr.Linked F) := by
  unfold binary
  split
  · exact .pure (by simp [hl, hr])
  · exact .reading (.typing _ _) fun t => .pure (by simp [hl, hr])

theorem links_unary (i : ExprInfo) (op : UnaryOp) (he : e.Linked F) : Links F (unary i op e) (Expr.Linked F) := by
  unfold unary
  split
  · exact .pure (by simp [he])
  refine .reading (.typing _ _) fun t => ?_
  split
  case h_3 => exact .pure (by simp [he])
  all_goals
    split
    · exact .pure (by simp)
    · exact .reject

theorem links_assign (i : ExprInfo) (op : AssignOp) (hl : l.Linked F) (hr : r.Linked F) :
    Links F (assign i op l r) (Expr.Linked F) := by
  refine .reading (reads_checkAssignable l) fun _ => ?_
  split
  · exact .pure (by simp [hl, hr])
  simp only [reject_bind]
  split
  · refine .reading (.typing _ _) fun t => ?_
    split
    · exact .reject
    · exact .pure (by simp [hl, hr])
  · split
    · exact .reject
    · exact .pure (by simp [hl, hr])

theorem links_hoist (what : Text) (t : Ty) (he : e.Linked F) : Links F (hoist what t e) (Expr.Linked F) := by
  refine ⟨fun {site σ a σ'} _ hσ h => ?_⟩
  cases h
  refine ⟨fun s hs => ?_, Expr.linked_ofVar _ _ _⟩
  rcases List.mem_append.mp hs with hs | hs
  · exact hσ s hs
  · rw [List.mem_singleton.mp hs]
    exact Stmt.linked_temp what t he _

theorem links_expandMatrix (span : Span) (he : e.Linked F) (c r : UInt32) (p : Primitive) (d s : UInt32)
    (q : Primitive) : Links F (expandMatrix span e c r p d s q) (Expr.Linked F) := by
  refine .reading .read fun site => ?_
  dsimp only
  split
  · exact .bind (links_hoist _ _ he) fun source hsource => .pure (Expr.linked_resizedMatrix span hsource d s q c r p)
  · exact .pure (Expr.linked_resizedMatrix span he d s q c r p)

theorem links_cast (i : ExprInfo) {target : Expr} (t : Ty) (htarget : target.Linked F)
    (hargs : ∀ a ∈ args, a.Linked F) : Links F (cast i target t args) (Expr.Linked F) := by
  have hwhole (t' : Ty) : (Expr.cast { i with type := t } (.ofType target.span t') args).Linked F :=
    (Expr.linked_cast _ _ _).mpr ⟨Expr.linked_ofType _ _, hargs⟩
  unfold cast
  split
  · exact .pure ((Expr.linked_cast _ _ _).mpr ⟨htarget, hargs⟩)
  dsimp only
  split
  · exact .pure (hwhole t)
  refine .reading (reads_foldCast _ _ _) fun v => ?_
  split
  · exact .pure (Expr.linked_ofValue _ _)
  refine .reading (.typing _ _) fun _ => ?_
  split
  · split
    · refine .reading .read fun site => ?_
      split
      · exact links_expandMatrix _ (List.forall_mem_singleton.mp hargs) _ _ _ _ _ _
      · exact .pure (hwhole _)
    · exact .pure (hwhole _)
  · exact .pure (hwhole t)

theorem links_ternary (i : ExprInfo) (he : e.Linked F) (hl : l.Linked F) (hr : r.Linked F) :
    Links F (ternary i e l r) (Expr.Linked F) := by
  unfold ternary
  simp only [reject_bind]
  split
  · exact .pure (by simp [he, hl, hr])
  split
  · exact .reject
  · exact .pure (by simp [he, hl, hr])

theorem links_indexed (i : ExprInfo) (he : e.Linked F) (hargs : ∀ a ∈ args, a.Linked F) :
    Links F (indexed i e args) (Expr.Linked F) := by
  refine .reading (reads_indexedType _ _ _) fun r => ?_
  split <;> exact .pure ((Expr.linked_index _ _ _).mpr ⟨he, hargs⟩)

theorem links_swizzled (components : List UInt32) (span : Span) (he : e.Linked F) :
    Links F (swizzled e components span) (Expr.Linked F) := by
  have hbase (b : Expr × List UInt32) (hb : b.1.Linked F) (t : Ty) : Links F (do
      if b.1.type.components = 1 && b.2.length = 1 then return b.1
      if b.1.type.isVector && b.1.type.components.toNat = b.2.length && isIdentity b.2 then return b.1
      return .swizzle ⟨span, t⟩ b.1 (Selector.ofList b.2)) (Expr.Linked F) := by
    split
    · exact .pure hb
    split
    · exact .pure hb
    · exact .pure ((Expr.linked_swizzle _ _ _).mpr hb)
  unfold swizzled
  simp only [reject_bind]
  split
  · split <;> exact .reject
  split
  · exact .reject
  split
  · exact hbase (_, _) ((Expr.linked_swizzle _ _ _).mp he) _
  · exact hbase (e, components) he _

theorem links_intrinsicCall (i : ExprInfo) (f : Intrinsic) (hargs : ∀ a ∈ args, a.Linked F) :
    Links F (intrinsicCall i f args) (Expr.Linked F) := by
  unfold intrinsicCall
  split
  · exact .pure ((Expr.linked_intrinsic _ _ _).mpr hargs)
  · exact .reading (.typing _ _) fun t => .pure ((Expr.linked_intrinsic _ _ _).mpr hargs)

theorem links_call (i j : ExprInfo) {id : Int} (hid : F id) (hargs : ∀ a ∈ args, a.Linked F) :
    Links F (call i (.function j id) args) (Expr.Linked F) := by
  refine .reading .getSession fun s => ?_
  split
  · exact .reject
  simp only [reject_bind]
  refine .reading .read fun site => ?_
  split
  · exact .reject
  split
  · exact .reject
  split
  · exact .reject
  · exact .reading (reads_checkArguments _ _ _ _) fun _ => .pure ((Expr.linked_call _ _ _).mpr ⟨⟨j, id, rfl, hid⟩, hargs⟩)

/-- Only a name could stand for a type that has to be made first. -/
theorem reads_typeOf (h : e.Linked F) : Reads (typeOf? e) := by
  unfold typeOf?
  split
  · exact .pure _
  · exact .bind (reads_structType _ _) fun t => .pure _
  · exact absurd h (Expr.linked_name _ _)
  · exact absurd ((Expr.linked_index _ _ _).mp h).1 (Expr.linked_name _ _)
  · exact .pure _

end

mutual

theorem links_expression (e : Expr) (h : e.Linked F) : Links F (expression e) (Expr.Linked F) := by
  cases e with
  | absent => exact .reject
  | name i n => exact absurd h (Expr.linked_name i n)
  | member i base names => exact absurd h (Expr.linked_member i base names)
  | method i object name args => exact absurd h (Expr.linked_method i object name args)
  | binary i op l r =>
    obtain ⟨hl, hr⟩ := (Expr.linked_binary _ _ _ _).mp h
    exact .bind (links_expression l hl) fun l' hl' => .bind (links_expression r hr) fun r' hr' => links_binary i op hl' hr'
  | unary i op e =>
    exact .bind (links_expression e ((Expr.linked_unary _ _ _).mp h)) fun e' he' => links_unary i op he'
  | assign i op l r =>
    obtain ⟨hl, hr⟩ := (Expr.linked_assign _ _ _ _).mp h
    exact .bind (links_expression l hl) fun l' hl' => .bind (links_expression r hr) fun r' hr' => links_assign i op hl' hr'
  | cast i target args =>
    obtain ⟨htarget, hargs⟩ := (Expr.linked_cast _ _ _).mp h
    refine .reading (reads_typeOf htarget) fun r => .reading (reads_asType target r) fun t => ?_
    exact .bind (links_expressions args hargs) fun args' hargs' => links_cast i t htarget hargs'
  | ternary i c t f =>
    obtain ⟨hc, ht, hf⟩ := (Expr.linked_ternary _ _ _ _).mp h
    refine .bind (links_expression c hc) fun c' hc' => .reading (reads_requireBool _ _) fun _ => ?_
    exact .bind (links_expression t ht) fun t' ht' => .bind (links_expression f hf) fun f' hf' => links_ternary i hc' ht' hf'
  | index i base indices =>
    obtain ⟨hbase, hindices⟩ := (Expr.linked_index _ _ _).mp h
    have access : Links F (do
        let base ← expression base
        let indices ← expressions indices
        indexed i base indices) (Expr.Linked F) :=
      .bind (links_expression base hbase) fun b hb => .bind (links_expressions indices hindices) fun is his =>
        links_indexed i hb his
    cases base with
    | name j n => exact absurd hbase (Expr.linked_name j n)
    | _ => exact access
  | swizzle i base s =>
    refine .bind (links_expression base ((Expr.linked_swizzle _ _ _).mp h)) fun b hb => ?_
    split
    · exact links_swizzled _ _ hb
    · exact .pure ((Expr.linked_swizzle _ _ _).mpr hb)
  | call i target args =>
    obtain ⟨⟨j, id, rfl, hid⟩, hargs⟩ := (Expr.linked_call _ _ _).mp h
    -- a function does not stand for a type
    change Links F (expression (.function j id) >>= fun target => expressions args >>= fun args => call i target args) _
    refine .bind (links_functionReference j id) fun target htarget => ?_
    obtain ⟨k, rfl⟩ := htarget
    exact .bind (links_expressions args hargs) fun args' hargs' => links_call i k hid hargs'
  | intrinsic i f args =>
    exact .bind (links_expressions args ((Expr.linked_intrinsic _ _ _).mp h)) fun args' hargs' =>
      links_intrinsicCall i f hargs'
  | _ => exact links_reference h

theorem links_expressions (es : List Expr) (h : ∀ e ∈ es, e.Linked F) :
    Links F (expressions es) fun es' => ∀ e ∈ es', e.Linked F := by
  cases es with
  | nil => exact .pure h
  | cons e es =>
    rw [List.forall_mem_cons] at h
    exact .bind (links_expression e h.1) fun e' he' => .bind (links_expressions es h.2) fun es' hes' =>
      .pure (List.forall_mem_cons.mpr ⟨he', hes'⟩)

end

section

variable {e : Expr}

theorem links_typeNote (h : e.Linked F) : Links F ( annotation e) fun r => r.2.Linked F := by
  refine .reading (reads_typeOf h) fun r => .reading (reads_asType e r) fun t => .pure ?_
  dsimp only
  split
  · exact Expr.linked_ofType _ _
  · exact h

/-- A type that may be left out. -/
theorem links_typeNoteOr (t : Ty) (h : e.Linked F) :
    Links F (if e.isAbsent then pure (t, e) else annotation e) fun r => r.2.Linked F := by
  split
  · exact .pure h
  · exact links_typeNote h

theorem links_expressionOr (h : e.Linked F) :
    Links F (if e.isAbsent then pure e else expression e) (Expr.Linked F) := by
  split
  · exact .pure h
  · exact links_expression e h

theorem links_choice (a : Attr α) (ofName? : Text → Option α) (unknown : Text → Rejection) :
    Links F (choice a ofName? unknown) fun a' => a'.expr.Linked F := by
  unfold choice
  split
  · rename_i habsent
    refine .pure ?_
    cases he : a.expr with
    | absent => exact Expr.linked_absent
    | _ =>
      rw [he] at habsent
      cases habsent
  refine .reading (reads_nameArgument _) fun name => ?_
  split
  · exact .pure Expr.linked_absent
  · exact .reject

theorem links_boolAttr {a : Attr Bool} (h : a.expr.Linked F) : Links F (boolAttr a) fun a' => a'.expr.Linked F := by
  unfold boolAttr
  split
  · exact .pure h
  refine .bind (.bind (links_expression _ h) fun e' _ => .of_reads (reads_constantOf _ _ _)) fun v _ => ?_
  split
  · exact .pure Expr.linked_absent
  · exact .reject

end

theorem links_constantInfo (name : Text) (t : Ty) {e : Expr} (h : e.Linked F) :
    Links F (constantInfo name t e) fun r => r.2.Linked F := by
  unfold constantInfo
  split
  · exact .pure h
  simp only [reject_bind]
  split
  · exact .reject
  refine .reading (.evaluateWithDefaults _) fun fallback => ?_
  split
  · exact .reject
  · refine .reading (.evaluate _) fun value => .pure ?_
    cases value.toOption with
    | none => exact h
    | some v => exact Expr.linked_ofValue _ _

theorem links_declareConst {span : Span} {d : ConstDecl} (h : (Stmt.const span d).Linked F) :
    Links F (declareConst span d) fun d' => (Stmt.const span d').Linked F := by
  obtain ⟨htype, hvalue, hexported⟩ := (Stmt.linked_const _ _).mp h
  unfold declareConst
  simp only [ite_bind]
  refine .bind (links_typeNoteOr _ htype) fun t ht => .bind (links_expression _ hvalue) fun e he => ?_
  refine .bind (links_boolAttr hexported) fun exported hexported' => .bind (links_constantInfo _ _ he) fun info hinfo => ?_
  refine .bind (links_constantId _) fun id _ => .bind .modifySession fun _ _ => ?_
  refine .bind (links_publish _ _ _ _) fun _ _ => .bind (links_declare _ _ _) fun _ _ => .pure ?_
  exact (Stmt.linked_const _ _).mpr ⟨ht, hinfo, hexported'⟩

theorem links_aliasTarget {e : Expr} (h : e.Linked F) : Links F (aliasTarget e) (Expr.Linked F) := by
  refine .reading (reads_typeOf h) fun r => ?_
  split
  · exact .pure (Expr.linked_structRef _ _)
  · exact .pure (Expr.linked_ofType _ _)
  refine .bind (links_expression e h) fun e' he' => ?_
  split <;> first | exact .pure he' | exact .reject

theorem links_declareAlias {span : Span} {d : AliasDecl} (h : (Stmt.alias span d).Linked F) :
    Links F (declareAlias span d) fun d' => (Stmt.alias span d').Linked F := by
  obtain ⟨htarget, hexported⟩ := (Stmt.linked_alias _ _).mp h
  refine .bind (links_aliasTarget htarget) fun target ht => .bind (links_boolAttr hexported) fun exported hexported' => ?_
  refine .bind (links_aliasId _) fun id _ => .bind (links_publish _ _ _ _) fun _ _ => ?_
  exact .bind (links_declare _ _ _) fun _ _ => .pure ((Stmt.linked_alias _ _).mpr ⟨ht, hexported'⟩)

theorem links_declareVariable {span : Span} {d : VarDecl} (h : (Stmt.letVar span d).Linked F) :
    Links F (declareVariable span d) fun d' => (Stmt.letVar span d').Linked F := by
  obtain ⟨htype, hinit⟩ := (Stmt.linked_letVar _ _).mp h
  unfold declareVariable
  simp only [ite_bind, reject_bind]
  refine .bind (links_typeNoteOr _ htype) fun t ht => .bind (links_expressionOr hinit) fun init hinit' => ?_
  generalize (if t.1.isKnown = true then t.1 else init.type) = type
  have stored : Links F (do
      let id ← variableId d.id
      addVariable id { name := d.name, type }
      declare d.name span (.variable id)
      return { d with type := t.2, init, id : VarDecl }) fun d' => (Stmt.letVar span d').Linked F :=
    .bind (links_variableId _) fun id _ => .bind .modifySession fun _ _ => .bind (links_declare _ _ _) fun _ _ =>
      .pure ((Stmt.linked_letVar _ _).mpr ⟨ht, hinit'⟩)
  split
  · split
    · exact .reject
    split
    · exact .reject
    split
    · exact .reject
    · exact stored
  · split
    · exact .reject
    · exact stored

theorem links_constantConditions {arms : List (Expr × Stmt)} (h : ∀ a ∈ arms, a.1.Linked F) :
    Links F (constantConditions arms) fun cs => ∀ c ∈ cs, c.1.Linked F := by
  induction arms with
  | nil => exact .pure fun _ hc => absurd hc List.not_mem_nil
  | cons arm arms ih =>
    rw [List.forall_mem_cons] at h
    refine .bind (links_expression _ h.1) fun c hc => .reading (reads_constantCondition c) fun known => ?_
    exact .bind (ih h.2) fun cs hcs => .pure (List.forall_mem_cons.mpr ⟨hc, hcs⟩)

theorem links_rangeHead {h : RangeHead} (hh : h.start.Linked F ∧ h.stop.Linked F ∧ h.step.Linked F) :
    Links F (rangeHead h) fun r =>
      r.1.unroll.expr.Linked F ∧ r.1.start.Linked F ∧ r.1.stop.Linked F ∧ r.1.step.Linked F := by
  unfold rangeHead
  simp only [ite_bind, reject_bind]
  refine .bind (links_expression _ hh.1) fun start hstart => .bind (links_expression _ hh.2.1) fun stop hstop => ?_
  refine .bind (links_expressionOr hh.2.2) fun step hstep => .bind (links_choice _ _ _) fun unroll hunroll => ?_
  split
  · split
    · exact .reject
    · exact .reading (reads_checkBound _ _) fun _ => .reading (reads_checkBound _ _) fun _ =>
        .pure ⟨hunroll, hstart, hstop, hstep⟩
  · exact .pure ⟨hunroll, hstart, hstop, hstep⟩

theorem links_eachHead {h : EachHead} (hh : h.array.Linked F) :
    Links F (eachHead h) fun r => r.1.unroll.expr.Linked F ∧ r.1.array.Linked F := by
  refine .bind (links_expression _ hh) fun array harray => .bind (links_choice _ _ _) fun unroll hunroll => ?_
  split
  · exact .pure ⟨hunroll, harray⟩
  · exact .pure ⟨hunroll, harray⟩
  · exact .reject

theorem links_returned (span : Span) (f : Function) {e : Expr} (h : e.Linked F) :
    Links F (returned span f e) (Expr.Linked F) := by
  unfold returned
  simp only [ite_bind, reject_bind]
  split
  · exact .bind (links_expressionOr h) fun e' he' => .pure he'
  split
  · split
    · exact .reject
    · exact .pure h
  refine .bind (links_expression e h) fun e' he' => ?_
  split
  · exact .reject
  split
  · exact .reject
  · exact .pure he'

theorem links_supplied {act : StateM Supply Stmt} (h : ∀ s, (act.run s).1.Linked F) :
    Links F (supplied act) (Stmt.Linked F) := by
  refine ⟨fun {site σ out σ'} _ hσ hrun => ?_⟩
  obtain ⟨rfl, rfl⟩ := supplied_ok hrun
  exact ⟨hσ, h _⟩

theorem links_rangeLoop {span : Span} {h : RangeHead} (t : Ty) {body : Stmt}
    (hloop : (Stmt.forRange span h body).Linked F) : Links F (rangeLoop span h t body) (Stmt.Linked F) := by
  unfold rangeLoop
  split
  · refine .reading .read fun site => ?_
    split
    · exact links_supplied fun s => Stmt.linked_reduceRange span hloop s
    · exact .pure hloop
  · exact .pure hloop

theorem links_eachLoop {span : Span} {h : EachHead} {body : Stmt} (hloop : (Stmt.forEach span h body).Linked F) :
    Links F (eachLoop span h body) (Stmt.Linked F) := by
  unfold eachLoop
  split
  · refine .reading .read fun site => ?_
    split
    · exact links_supplied fun s => Stmt.linked_reduceEach span hloop s
    · exact .pure hloop
  · exact .pure hloop

section

variable {x : Check (Option Stmt)} (span : Span)

/-- A statement that may be left out. -/
abbrev LinkedOption (F : Int → Prop) (r : Option Stmt) : Prop := ∀ s ∈ r, s.Linked F

theorem links_nested (hx : Links F x (LinkedOption F)) : Links F (nested span x) (Stmt.Linked F) := by
  refine .bind hx.collecting fun r ⟨hpending, hr⟩ => .pure ?_
  have hresult : (r.2.getD (.noOp span)).Linked F := by
    cases hsome : r.2 with
    | none => exact Stmt.linked_noOp span
    | some s => exact hr s hsome
  split
  · exact hresult
  · exact (Stmt.linked_block _ _).mpr (List.forall_mem_append.mpr ⟨hpending, List.forall_mem_singleton.mpr hresult⟩)

theorem links_nestedScoped (hx : Links F x (LinkedOption F)) : Links F (nestedScoped span x) (Stmt.Linked F) :=
  (links_nested span hx).inScope

theorem links_otherwise (s : Stmt) (hx : Links F x (LinkedOption F)) :
    Links F (unlessAbsent s (nestedScoped span x)) (Stmt.Linked F) := by
  unfold unlessAbsent
  split
  · exact .pure Stmt.linked_absent
  · exact links_nestedScoped span hx

theorem links_counted {x : Check Stmt} (name : Text) (id : Int) (t : Ty) (hx : Links F x (Stmt.Linked F)) :
    Links F (counted name id t x) fun r => r.2.Linked F :=
  .inScope (.bind (links_variableId _) fun _ _ => .bind (links_declareLocal _ _ _) fun _ _ =>
    .bind (.withReader (fun _ => rfl) hx) fun _ hs => .pure hs)

end

/-- Declarations that stand outside functions only. -/
theorem links_requireModuleScope {f : Unit → Check α} (span : Span) (what : Text) {Q : α → Prop} :
    Links F (requireModuleScope span what >>= f) Q := by
  refine ⟨fun {site σ a σ'} hsite _ h => ?_⟩
  obtain ⟨u, σ₁, hscope, -⟩ := bind_ok.mp h
  obtain ⟨s, σ₂, hs, hrun⟩ := bind_ok.mp hscope
  obtain ⟨rfl, rfl⟩ := read_ok.mp hs
  rw [if_pos hsite] at hrun
  exact (reject_ok.mp hrun).elim

variable {load : Loader}

/-- A check whose result becomes a statement. -/
theorem links_some {x : Check α} {P : α → Prop} {f : α → Stmt} (hx : Links F x P) (hf : ∀ a, P a → (f a).Linked F) :
    Links F (do return some (f (← x))) (LinkedOption F) :=
  .bind hx fun a ha => .pure fun _ hs => Option.some.inj hs ▸ hf a ha

mutual

/-- Inside functions, statements call nothing but what they called before. -/
theorem links_statement (s : Stmt) (h : s.Linked F) : Links F (statement load s) (LinkedOption F) := by
  cases s with
  | absent => exact .reading (reads_requireFunction _) fun _ => .reject
  | importFrom span | option span | struct span | external span =>
    exact .bind (P := fun _ => False) (links_requireModuleScope span _) fun _ => False.elim
  | function span head body =>
    exact .bind (P := fun _ => False) (links_requireModuleScope span _) fun _ => False.elim
  | const span d => exact links_some (links_declareConst h) fun _ hd => hd
  | «alias» span d => exact links_some (links_declareAlias h) fun _ hd => hd
  | conditional span c body =>
    obtain ⟨hc, hbody⟩ := (Stmt.linked_conditional _ _ _).mp h
    refine .bind (links_expression c hc) fun cond hcond => .reading (reads_constantCondition cond) fun known => ?_
    split
    · exact links_statement body hbody
    · exact .pure nofun
    · refine .bind (.withReader (fun _ => rfl) (links_statement body hbody)) fun r hr => .pure fun s hs => ?_
      obtain ⟨s', hs', rfl⟩ := Option.map_eq_some_iff.mp hs
      exact (Stmt.linked_conditional _ _ _).mpr ⟨hcond, hr s' hs'⟩
  | multi span body =>
    exact links_some (links_statements body ((Stmt.linked_multi _ _).mp h)) fun _ hss => (Stmt.linked_multi _ _).mpr hss
  | noOp span => exact .pure fun _ hs => Option.some.inj hs ▸ Stmt.linked_noOp span
  | «scoped» span body =>
    refine .reading (reads_requireFunction span) fun _ => ?_
    exact links_some (links_nestedScoped _ (links_statement body ((Stmt.linked_scoped _ _).mp h))) fun _ hs =>
      (Stmt.linked_scoped _ _).mpr hs
  | expr span e =>
    refine .reading (reads_requireFunction span) fun _ => ?_
    exact links_some (links_expression e ((Stmt.linked_expr _ _).mp h)) fun _ he => (Stmt.linked_expr _ _).mpr he
  | letVar span d =>
    exact .reading (reads_requireFunction span) fun _ => links_some (links_declareVariable h) fun _ hd => hd
  | branch span isConst arms other =>
    obtain ⟨harms, hother⟩ := (Stmt.linked_branch _ _ _ _).mp h
    have hotherwise : Links F (unlessAbsent other (nestedScoped other.span (statement load other))) (Stmt.Linked F) :=
      links_otherwise other.span other (links_statement other hother)
    cases isConst with
    | false =>
      refine .reading (reads_requireFunction span) fun _ => .bind (links_branchArms arms harms) fun arms' harms' => ?_
      refine .bind hotherwise fun other' hother' => .reading .read fun site => ?_
      split
      · exact .pure fun _ hs => Option.some.inj hs ▸ Stmt.linked_splitBranch _ _ harms' hother'
      · exact .pure fun _ hs => Option.some.inj hs ▸ (Stmt.linked_branch _ _ _ _).mpr ⟨harms', hother'⟩
    | true =>
      refine .reading (reads_requireFunction span) fun _ => ?_
      refine .bind (links_constantConditions fun a ha => (harms a ha).1) fun conds hconds => ?_
      split
      · split
        · exact links_selectedBody _ arms harms
        split
        · exact .pure nofun
        · exact links_some (links_nestedScoped _ (links_statement other hother)) fun _ hs => hs
      · refine .withReader (fun _ => rfl) (.bind (links_armBodies arms harms) fun bodies hbodies => ?_)
        refine .bind hotherwise fun other' hother' => .pure fun _ hs => Option.some.inj hs ▸ ?_
        refine (Stmt.linked_branch _ _ _ _).mpr ⟨fun a ha => ?_, hother'⟩
        obtain ⟨hcond, hbody⟩ := List.of_mem_zip ha
        obtain ⟨c, hc, heq⟩ := List.mem_map.mp hcond
        exact ⟨heq ▸ hconds c hc, hbodies _ hbody⟩
  | loop span c u body =>
    obtain ⟨-, hc, hbody⟩ := (Stmt.linked_loop _ _ _ _).mp h
    refine .reading (reads_requireFunction span) fun _ => .bind (P := Expr.Linked F) ?_ fun cond hcond => ?_
    · refine .withReader (fun _ => rfl) (.bind (links_expression c hc) fun cond hcond => ?_)
      exact .reading (reads_requireBool _ _) fun _ => .pure hcond
    refine .bind (links_choice _ _ _) fun u' hu' => ?_
    exact links_some (.withReader (fun _ => rfl) (links_nestedScoped _ (links_statement body hbody))) fun _ hs =>
      (Stmt.linked_loop _ _ _ _).mpr ⟨hu', hcond, hs⟩
  | forRange span head body =>
    obtain ⟨⟨-, hhead⟩, hbody⟩ := (Stmt.linked_forRange _ _ _).mp h
    refine .reading (reads_requireFunction span) fun _ => .bind (links_rangeHead hhead) fun r hr => ?_
    refine .bind (links_counted _ _ _ (links_nested _ (links_statement body hbody))) fun b hb => ?_
    exact links_some (links_rangeLoop _ ((Stmt.linked_forRange _ _ _).mpr ⟨hr, hb⟩)) fun _ hs => hs
  | forEach span head body =>
    obtain ⟨⟨-, hhead⟩, hbody⟩ := (Stmt.linked_forEach _ _ _).mp h
    refine .reading (reads_requireFunction span) fun _ => .bind (links_eachHead hhead) fun r hr => ?_
    refine .bind (links_counted _ _ _ (links_nested _ (links_statement body hbody))) fun b hb => ?_
    exact links_some (links_eachLoop ((Stmt.linked_forEach _ _ _).mpr ⟨hr, hb⟩)) fun _ hs => hs
  | returnWith span e =>
    refine .reading (reads_requireFunction span) fun f => ?_
    exact links_some (links_returned span f ((Stmt.linked_returnWith _ _).mp h)) fun _ he =>
      (Stmt.linked_returnWith _ _).mpr he
  | discard span =>
    exact .reading (reads_requireFunction span) fun _ => .pure fun _ hs => Option.some.inj hs ▸ Stmt.linked_discard span
  | breakLoop span =>
    exact .reading (reads_requireFunction span) fun _ => .reading (reads_requireLoop span _) fun _ =>
      .pure fun _ hs => Option.some.inj hs ▸ Stmt.linked_breakLoop span
  | continueLoop span =>
    exact .reading (reads_requireFunction span) fun _ => .reading (reads_requireLoop span _) fun _ =>
      .pure fun _ hs => Option.some.inj hs ▸ Stmt.linked_continueLoop span

theorem links_statements (ss : List Stmt) (h : ∀ s ∈ ss, s.Linked F) :
    Links F (statements load ss) fun ss' => ∀ s ∈ ss', s.Linked F := by
  cases ss with
  | nil => exact .pure h
  | cons s ss =>
    rw [List.forall_mem_cons] at h
    refine .bind (links_statement s h.1).collecting fun r ⟨hpending, hr⟩ => ?_
    refine .bind (links_statements ss h.2) fun rest hrest => .pure ?_
    refine List.forall_mem_append.mpr ⟨List.forall_mem_append.mpr ⟨hpending, fun s' hs' => ?_⟩, hrest⟩
    exact hr s' (Option.mem_toList.mp hs')

theorem links_branchArms (arms : List (Expr × Stmt)) (h : ∀ a ∈ arms, a.1.Linked F ∧ a.2.Linked F) :
    Links F (branchArms load arms) fun as => ∀ a ∈ as, a.1.Linked F ∧ a.2.Linked F := by
  match arms with
  | [] => exact .pure h
  | (c, s) :: arms =>
    rw [List.forall_mem_cons] at h
    refine .bind (links_expression c h.1.1) fun cond hcond => .reading (reads_requireBool _ _) fun _ => ?_
    refine .bind (links_nestedScoped _ (links_statement s h.1.2)) fun body hbody => ?_
    exact .bind (links_branchArms arms h.2) fun as has => .pure (List.forall_mem_cons.mpr ⟨⟨hcond, hbody⟩, has⟩)

theorem links_armBodies (arms : List (Expr × Stmt)) (h : ∀ a ∈ arms, a.1.Linked F ∧ a.2.Linked F) :
    Links F (armBodies load arms) fun bodies => ∀ s ∈ bodies, s.Linked F := by
  match arms with
  | [] => exact .pure fun _ hs => absurd hs List.not_mem_nil
  | (c, s) :: arms =>
    rw [List.forall_mem_cons] at h
    refine .bind (links_nestedScoped _ (links_statement s h.1.2)) fun body hbody => ?_
    exact .bind (links_armBodies arms h.2) fun bodies hbodies => .pure (List.forall_mem_cons.mpr ⟨hbody, hbodies⟩)

theorem links_selectedBody (n : Nat) (arms : List (Expr × Stmt)) (h : ∀ a ∈ arms, a.1.Linked F ∧ a.2.Linked F) :
    Links F (selectedBody load n arms) (LinkedOption F) := by
  match n, arms with
  | 0, [] | n + 1, [] => exact .pure nofun
  | 0, (c, s) :: arms =>
    rw [List.forall_mem_cons] at h
    exact links_some (links_nestedScoped _ (links_statement s h.1.2)) fun _ hs => hs
  | n + 1, (c, s) :: arms =>
    rw [List.forall_mem_cons] at h
    exact links_selectedBody n arms h.2

end

/-- The same of the body of a function, whatever is to stand before the statement that it is part of. -/
theorem linked_of_statements {ss rs : List Stmt} {site : Site} {σ σ' : State} (hsite : site.function.isSome)
    (hss : ∀ s ∈ ss, s.Linked F) (h : statements load ss site σ = .ok (rs, σ')) : ∀ s ∈ rs, s.Linked F := by
  induction ss generalizing rs σ with
  | nil =>
    obtain ⟨rfl, -⟩ := pure_ok.mp h
    exact hss
  | cons s ss ih =>
    rw [List.forall_mem_cons] at hss
    obtain ⟨⟨pending, r⟩, σ₁, hcollect, h⟩ := bind_ok.mp h
    obtain ⟨rest, σ₂, hrest, hpure⟩ := bind_ok.mp h
    obtain ⟨rfl, rfl⟩ := pure_ok.mp hpure
    obtain ⟨σ₃, hrun, hpending, -⟩ := collecting_ok hcollect
    have hempty : (σ.withPending []).Linked F := fun _ hs => absurd hs List.not_mem_nil
    obtain ⟨hσ₃, hr⟩ := (links_statement s hss.1).run hsite hempty hrun
    replace hpending : pending = σ₃.draft.pending := hpending
    rw [hpending]
    refine List.forall_mem_append.mpr ⟨List.forall_mem_append.mpr ⟨hσ₃, fun s' hs' => ?_⟩, ih hss.2 hrest⟩
    exact hr s' (Option.mem_toList.mp hs')

end Shading.Check
