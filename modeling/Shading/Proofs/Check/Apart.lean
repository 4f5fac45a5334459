import Shading.Check.Statement
import Shading.Proofs.Check.Nesting
import Shading.Proofs.Check.Reading

/-! Checks that have nothing to do with modules. They leave the modules of the session alone, and before a
statement they put declarations of variables at most. -/
namespace Shading

/-- Is a statement the declaration of a variable? -/
def Stmt.IsVariable (s : Stmt) : Prop := ∃ span d, s = .letVar span d

namespace Check

variable {α β : Type}

/-- The same modules are done, in progress, known from before and missing. -/
structure Session.SameModules (s s' : Session) : Prop where
  finished : s'.finished = s.finished
  inProgress : s'.inProgress = s.inProgress
  previous : s'.previous = s.previous
  missing : s'.missing = s.missing

namespace Session.SameModules

variable {s s' s'' : Session}

theorem refl (s : Session) : s.SameModules s := ⟨rfl, rfl, rfl, rfl⟩

theorem trans (h : s.SameModules s') (h' : s'.SameModules s'') : s.SameModules s'' :=
  ⟨h'.finished.trans h.finished, h'.inProgress.trans h.inProgress, h'.previous.trans h.previous,
    h'.missing.trans h.missing⟩

end Session.SameModules

/-- Nothing has been done with modules between two states. -/
structure State.Beside (σ σ' : State) : Prop where
  modules : σ.session.SameModules σ'.session
  pending : ∀ s ∈ σ'.draft.pending, s ∈ σ.draft.pending ∨ s.IsVariable
  /-- a binding that is taken stays so -/
  bindings : σ.draft.bindings ⊆ σ'.draft.bindings
  /-- structures are entered under their numbers -/
  structs : ∀ x ∈ σ'.session.structs, x ∈ σ.session.structs ∨ x.2.record.id = x.1

theorem State.Beside.refl (σ : State) : σ.Beside σ :=
  ⟨.refl _, fun _ hs => .inl hs, List.Subset.refl _, fun _ hx => .inl hx⟩

theorem State.Beside.trans {σ σ₁ σ₂ : State} (h : σ.Beside σ₁) (h' : σ₁.Beside σ₂) : σ.Beside σ₂ := by
  refine ⟨h.modules.trans h'.modules, fun s hs => ?_, fun b hb => h'.bindings (h.bindings hb), fun x hx => ?_⟩
  · rcases h'.pending s hs with hs | hs
    · exact h.pending s hs
    · exact .inr hs
  · rcases h'.structs x hx with hx | hx
    · exact h.structs x hx
    · exact .inr hx

/-- A check that has nothing to do with modules. -/
structure Apart (x : Check α) : Prop where
  run : ∀ {site σ a σ'}, x site σ = .ok (a, σ') → σ.Beside σ'

namespace Apart

variable {x : Check α}

theorem of_reads (h : Reads x) : Apart x := by
  refine ⟨fun hx => ?_⟩
  rw [h.run hx]
  exact .refl _

theorem pure (a : α) : Apart (Pure.pure a) := .of_reads (.pure a)

theorem reject (span : Span) (r : Rejection) : Apart (Check.reject span r : Check α) := .of_reads (.reject span r)

theorem bind {f : α → Check β} (hx : Apart x) (hf : ∀ a, Apart (f a)) : Apart (x >>= f) := by
  refine ⟨fun h => ?_⟩
  obtain ⟨a, σ₁, hrun, hrest⟩ := bind_ok.mp h
  exact (hx.run hrun).trans ((hf a).run hrest)

/-- What is read first changes nothing. -/
theorem after {f : α → Check β} (hx : Reads x) (hf : ∀ a, Apart (f a)) : Apart (x >>= f) := .bind (.of_reads hx) hf

theorem withReader {f : Site → Site} (hx : Apart x) : Apart (MonadWithReader.withReader f x) :=
  ⟨fun h => hx.run (withReader_ok.mp h)⟩

theorem modifySession {f : Session → Session} (h : ∀ s : Session, s.SameModules (f s))
    (hs : ∀ s : Session, ∀ x ∈ (f s).structs, x ∈ s.structs ∨ x.2.record.id = x.1 := by exact fun _ _ => .inl) :
    Apart (modifySession f) := by
  refine ⟨fun {site σ u σ'} hx => ?_⟩
  rw [modifySession_ok.mp hx]
  exact ⟨h σ.session, fun _ hs => .inl hs, List.Subset.refl _, hs σ.session⟩

theorem modifyDraft {f : Draft → Draft} (h : ∀ d, ∀ s ∈ (f d).pending, s ∈ d.pending ∨ s.IsVariable)
    (hb : ∀ d : Draft, d.bindings ⊆ (f d).bindings := by exact fun _ => List.Subset.refl _) :
    Apart (modifyDraft f) := by
  refine ⟨fun {site σ u σ'} hx => ?_⟩
  rw [modifyDraft_ok.mp hx]
  exact ⟨.refl _, h σ.draft, hb σ.draft, fun _ hx => .inl hx⟩

/-- A change of what belongs to a module, other than the statements that are put before the current one. -/
theorem redraft {f : Draft → Draft} (h : ∀ d, (f d).pending = d.pending)
    (hb : ∀ d : Draft, d.bindings ⊆ (f d).bindings := by exact fun _ => List.Subset.refl _) :
    Apart (Check.modifyDraft f) :=
  .modifyDraft (fun d _ hs => .inl (h d ▸ hs)) hb

theorem get : Apart (MonadState.get : Check State) := by
  refine ⟨fun h => ?_⟩
  rw [(get_ok.mp h).2]
  exact .refl _

theorem forM {as : List α} {f : α → Check PUnit} (h : ∀ a, Apart (f a)) : Apart (as.forM f) := by
  induction as with
  | nil => exact .pure _
  | cons a as ih => exact .bind (h a) fun _ => ih

end Apart

theorem apart_declare (name : Text) (span : Span) (b : Binding) : Apart (declare name span b) := by
  refine .after .getDraft fun d => .after .read fun site => ?_
  split
  · exact .redraft fun _ => rfl
  split
  · exact .redraft fun _ => rfl
  · exact .reject _ _

theorem apart_publish (name : Text) (exported : Attr Bool) (b : Binding) (span : Span) :
    Apart (publish name exported b span) := by
  unfold publish
  simp only [reject_bind]
  split
  · refine .after .read fun site => ?_
    split
    · exact .reject _ _
    · exact .redraft fun _ => rfl
  · exact .pure _

/-- A number is kept, or the next one of its kind is given out. -/
theorem apart_number (id : Int) (next : Session → Int) (f : Int → Session → Session)
    (h : ∀ n, ∀ s : Session, s.SameModules (f n s)) (hs : ∀ n, ∀ s : Session, (f n s).structs = s.structs) :
    Apart (do
      if id != 0 then return id
      let n := next (← getSession)
      modifySession (f n)
      return n) := by
  dsimp only
  split
  · exact .pure _
  · exact .after .getSession fun s =>
      .bind (.modifySession (h _) fun s x hx => .inl (hs _ s ▸ hx)) fun _ => .pure _

theorem apart_variableId (id : Int) : Apart (variableId id) :=
  apart_number id (·.nextVar) (fun n s => { s with nextVar := Serial.next n })
    (fun _ _ => ⟨rfl, rfl, rfl, rfl⟩) fun _ _ => rfl

theorem apart_constantId (id : Int) : Apart (constantId id) :=
  apart_number id (·.nextConst) (fun n s => { s with nextConst := Serial.next n })
    (fun _ _ => ⟨rfl, rfl, rfl, rfl⟩) fun _ _ => rfl

theorem apart_functionId (id : Int) : Apart (functionId id) :=
  apart_number id (·.nextFunc) (fun n s => { s with nextFunc := Serial.next n })
    (fun _ _ => ⟨rfl, rfl, rfl, rfl⟩) fun _ _ => rfl

theorem apart_structId (id : Int) : Apart (structId id) :=
  apart_number id (·.nextStruct) (fun n s => { s with nextStruct := Serial.next n })
    (fun _ _ => ⟨rfl, rfl, rfl, rfl⟩) fun _ _ => rfl

theorem apart_aliasId (id : Int) : Apart (aliasId id) :=
  apart_number id (·.nextAlias) (fun n s => { s with nextAlias := Serial.next n })
    (fun _ _ => ⟨rfl, rfl, rfl, rfl⟩) fun _ _ => rfl

theorem apart_addVariable (id : Int) (v : Variable) : Apart (addVariable id v) :=
  .modifySession fun _ => ⟨rfl, rfl, rfl, rfl⟩

theorem apart_addConstant (id : Int) (c : Constant) : Apart (addConstant id c) :=
  .modifySession fun _ => ⟨rfl, rfl, rfl, rfl⟩

theorem apart_hoist (what : Text) (t : Ty) (init : Expr) : Apart (hoist what t init) := by
  refine .bind .get fun σ => .bind (.modifySession fun _ => ⟨rfl, rfl, rfl, rfl⟩) fun _ => .bind ?_ fun _ => .pure _
  refine .modifyDraft fun d s hs => ?_
  rcases List.mem_append.mp hs with hs | hs
  · exact .inl hs
  · exact .inr ⟨_, _, List.mem_singleton.mp hs⟩

theorem apart_expandMatrix (span : Span) (arg : Expr) (c r : UInt32) (p : Primitive) (d s : UInt32) (q : Primitive) :
    Apart (expandMatrix span arg c r p d s q) := by
  refine .after .read fun site => ?_
  dsimp only
  split
  · exact .bind (apart_hoist _ _ _) fun source => .pure _
  · exact .pure _

theorem apart_cast (i : ExprInfo) (target : Expr) (t : Ty) (args : List Expr) : Apart (cast i target t args) := by
  unfold cast
  split
  · exact .pure _
  dsimp only
  split
  · exact .pure _
  refine .after (reads_foldCast _ _ _) fun v => ?_
  split
  · exact .pure _
  refine .after (.typing _ _) fun _ => ?_
  split
  · split
    · refine .after .read fun site => ?_
      split
      · exact apart_expandMatrix _ _ _ _ _ _ _ _
      · exact .pure _
    · exact .pure _
  · exact .pure _

mutual

theorem apart_typeOf (e : Expr) : Apart (typeOf? e) := by
  unfold typeOf?
  split
  · exact .pure _
  · exact .after (reads_structType _ _) fun t => .pure _
  · exact .after .getDraft fun d => .of_reads (reads_namedType _ _ _)
  · rename_i i j n args
    refine .after (reads_constructor n) fun c => ?_
    split
    · exact .bind (apart_constructedType _ n _ args) fun t => .pure _
    · exact .pure _
  · exact .pure _
termination_by sizeOf e
decreasing_by
  subst_vars
  rw [Expr.index.sizeOf_spec]
  omega

theorem apart_constructedType (c : TypeConstructor) (name : Text) (span : Span) (args : List Expr) :
    Apart (constructedType c name span args) := by
  unfold constructedType
  split
  · rename_i e
    exact .bind (apart_typeOf e) fun r => .after (reads_asType e r) fun t => .of_reads (reads_constructed _ _ _ _ _)
  · rename_i e size
    split
    · refine .bind (apart_typeOf e) fun r => .after (reads_asType e r) fun t => ?_
      split
      · exact .pure _
      refine .bind (apart_expression size) fun checked => .after (reads_unsignedOf _ _ _) fun n => ?_
      simp only [reject_bind]
      split
      · exact .reject _ _
      · exact .pure _
    · exact .reject _ _
    · exact .reject _ _
  · split <;> exact .reject _ _
termination_by sizeOf args
decreasing_by
  all_goals
    subst_vars
    simp only [List.cons.sizeOf_spec]
    omega

theorem apart_expression (e : Expr) : Apart (expression e) := by
  unfold expression
  split
  case h_1 => exact .reject _ _
  case h_2 => exact .of_reads (reads_named _ _)
  case h_10 i op l r =>
    exact .bind (apart_expression l) fun l' => .bind (apart_expression r) fun r' => .of_reads (reads_binary _ _ _ _)
  case h_11 i op e => exact .bind (apart_expression e) fun e' => .of_reads (reads_unary _ _ _)
  case h_12 i op l r =>
    exact .bind (apart_expression l) fun l' => .bind (apart_expression r) fun r' => .of_reads (reads_assign _ _ _ _)
  case h_13 i target args =>
    refine .bind (apart_typeOf target) fun r => .after (reads_asType target r) fun t => ?_
    exact .bind (apart_expressions args) fun args' => apart_cast _ _ _ _
  case h_14 i c t f =>
    refine .bind (apart_expression c) fun c' => .after (reads_requireBool _ _) fun _ => ?_
    exact .bind (apart_expression t) fun t' => .bind (apart_expression f) fun f' => .of_reads (reads_ternary _ _ _ _)
  case h_15 i base indices =>
    have access : Apart (do
        let base ← expression base
        let indices ← expressions indices
        indexed i base indices) :=
      .bind (apart_expression base) fun b => .bind (apart_expressions indices) fun is => .of_reads (reads_indexed _ _ _)
    dsimp only
    split
    · refine .after (reads_constructor _) fun c => ?_
      cases c with
      | none => exact access
      | some c =>
        show Apart (do return Expr.ofType i.span (← constructedType c _ i.span indices))
        exact .bind (apart_constructedType c _ _ indices) fun t => .pure _
    · exact access
  case h_16 i base names => exact .bind (apart_expression base) fun b => .of_reads (reads_membersOf _ _ _)
  case h_17 i base s =>
    refine .bind (apart_expression base) fun b => ?_
    split
    · exact .of_reads (reads_swizzled _ _ _)
    · exact .pure _
  case h_18 i target args =>
    refine .bind (apart_typeOf target) fun r => ?_
    split
    · exact .bind (apart_expressions args) fun args' => apart_cast _ _ _ _
    · exact .bind (apart_expression target) fun t => .bind (apart_expressions args) fun as =>
        .of_reads (reads_call i t as)
  case h_19 i object name args =>
    exact .bind (apart_expression object) fun o => .bind (apart_expressions args) fun as =>
      .of_reads (reads_methodCall _ _ _ _)
  case h_20 i f args => exact .bind (apart_expressions args) fun as => .of_reads (reads_intrinsicCall _ _ _)
  all_goals exact .of_reads (reads_reference _)
termination_by sizeOf e
decreasing_by
  all_goals
    subst_vars
    simp only [Expr.binary.sizeOf_spec, Expr.unary.sizeOf_spec, Expr.assign.sizeOf_spec, Expr.cast.sizeOf_spec,
      Expr.ternary.sizeOf_spec, Expr.index.sizeOf_spec, Expr.member.sizeOf_spec, Expr.swizzle.sizeOf_spec,
      Expr.call.sizeOf_spec, Expr.method.sizeOf_spec, Expr.intrinsic.sizeOf_spec]
    omega

theorem apart_expressions (es : List Expr) : Apart (expressions es) := by
  cases es with
  | nil => exact .pure _
  | cons e es => exact .bind (apart_expression e) fun e' => .bind (apart_expressions es) fun es' => .pure _
termination_by sizeOf es
decreasing_by
  all_goals
    subst_vars
    simp only [List.cons.sizeOf_spec]
    omega

end

theorem apart_typeNote (e : Expr) : Apart ( annotation e) :=
  .bind (apart_typeOf e) fun r => .after (reads_asType e r) fun _ => .pure _

theorem reads_choice (a : Attr α) (ofName? : Text → Option α) (unknown : Text → Rejection) :
    Reads (choice a ofName? unknown) := by
  unfold choice
  split
  · exact .pure _
  refine .bind (reads_nameArgument _) fun name => ?_
  split
  · exact .pure _
  · exact .reject _ _

theorem apart_constantArgument (e : Expr) (what : Text) : Apart (constantArgument e what) :=
  .bind (apart_expression e) fun _ => .of_reads (reads_constantOf _ _ _)

theorem apart_boolAttr (a : Attr Bool) : Apart (boolAttr a) := by
  unfold boolAttr
  split
  · exact .pure _
  refine .bind (apart_constantArgument _ _) fun v => ?_
  split
  · exact .pure _
  · exact .reject _ _

theorem apart_unsignedAttr (a : Attr UInt32) (what : Text) : Apart (unsignedAttr a what) := by
  unfold unsignedAttr
  split
  · exact .pure _
  · exact .bind (apart_expression _) fun e => .after (reads_unsignedOf _ _ _) fun n => .pure _

theorem apart_workgroupSizes (es : List Expr) (sizes : List UInt32) : Apart (workgroupSizes es sizes) := by
  induction es generalizing sizes with
  | nil => exact .pure _
  | cons e es ih =>
    exact .bind (apart_constantArgument _ _) fun v => .after (reads_addSizes _ _ _) fun sizes => ih sizes

theorem apart_workgroupAttr (a : Attr (UInt32 × UInt32 × UInt32)) : Apart (workgroupAttr a) := by
  unfold workgroupAttr
  split
  · exact .pure _
  dsimp only
  split <;> exact .bind (apart_workgroupSizes _ _) fun sizes => .pure _

theorem apart_functionAttributes (span : Span) (h : FnHead) : Apart (functionAttributes span h) := by
  refine .after (reads_choice _ _ _) fun stage => .bind (apart_boolAttr _) fun earlyTests => ?_
  refine .after (reads_choice _ _ _) fun depthWrite => .bind (apart_workgroupAttr _) fun workgroup => ?_
  refine .bind (apart_boolAttr _) fun exported => ?_
  simp only [reject_bind]
  split
  · exact .reject _ _
  split
  · exact .reject _ _
  split
  · exact .reject _ _
  split
  · exact .reject _ _
  · exact .pure _

theorem reads_requireModuleScope (span : Span) (what : Text) : Reads (requireModuleScope span what) := by
  refine .bind .read fun site => ?_
  split
  · exact .reject _ _
  · exact .pure _

/-- A type that may be left out. -/
theorem apart_typeNoteOr (e : Expr) (t : Ty) :
    Apart (if e.isAbsent then pure (t, e) else annotation e) := by
  split
  · exact .pure _
  · exact apart_typeNote e

theorem apart_optionDefault (d : OptionDecl) (t : Ty) : Apart (optionDefault d t) := by
  unfold optionDefault
  split
  · exact .pure _
  refine .bind (apart_expression _) fun e => .after (.evaluateWithDefaults _) fun v => ?_
  split
  · exact .reject _ _
  simp only [reject_bind]
  split
  · exact .reject _ _
  · exact .pure _

theorem reads_optionValue (span : Span) (name : Text) (t : Ty) : Reads (optionValue span name t) := by
  refine .bind .read fun site => ?_
  split
  · exact .pure _
  simp only [reject_bind]
  split
  · exact .reject _ _
  · exact .pure _

theorem reads_checkOptionType (span : Span) (name : Text) (t : Ty) : Reads (checkOptionType span name t) := by
  unfold checkOptionType
  split <;> first | exact .pure _ | exact .reject _ _

theorem apart_declareOption (span : Span) (d : OptionDecl) : Apart (declareOption span d) := by
  refine .after (reads_requireModuleScope _ _) fun _ => .bind (apart_typeNote _) fun t => ?_
  refine .after (reads_checkOptionType _ _ _) fun _ => .bind (apart_optionDefault _ _) fun fallback => ?_
  refine .after (reads_optionValue _ _ _) fun value => .bind (apart_constantId _) fun id => ?_
  exact .bind (apart_addConstant _ _) fun _ => .bind (apart_declare _ _ _) fun _ => .pure _

theorem reads_constantInfo (name : Text) (declared : Ty) (e : Expr) : Reads (constantInfo name declared e) := by
  unfold constantInfo
  split
  · exact .pure _
  simp only [reject_bind]
  split
  · exact .reject _ _
  refine .bind (.evaluateWithDefaults _) fun fallback => ?_
  split
  · exact .reject _ _
  · exact .bind (.evaluate _) fun value => .pure _

theorem apart_declareConst (span : Span) (d : ConstDecl) : Apart (declareConst span d) := by
  unfold declareConst
  simp only [ite_bind]
  refine .bind (apart_typeNoteOr _ _) fun t => .bind (apart_expression _) fun e => ?_
  refine .bind (apart_boolAttr _) fun exported => .after (reads_constantInfo _ _ _) fun info => ?_
  refine .bind (apart_constantId _) fun id => .bind (apart_addConstant _ _) fun _ => ?_
  exact .bind (apart_publish _ _ _ _) fun _ => .bind (apart_declare _ _ _) fun _ => .pure _

theorem apart_aliasTarget (e : Expr) : Apart (aliasTarget e) := by
  refine .bind (apart_typeOf e) fun r => ?_
  split
  · exact .pure _
  · exact .pure _
  refine .bind (apart_expression e) fun e' => ?_
  split <;> first | exact .pure _ | exact .reject _ _

theorem apart_declareAlias (span : Span) (d : AliasDecl) : Apart (declareAlias span d) := by
  refine .bind (apart_aliasTarget _) fun target => .bind (apart_boolAttr _) fun exported => ?_
  exact .bind (apart_aliasId _) fun id => .bind (apart_publish _ _ _ _) fun _ =>
    .bind (apart_declare _ _ _) fun _ => .pure _

theorem apart_memberExists (m : StructMember) : Apart (memberExists m) := by
  unfold memberExists
  split
  · exact .pure _
  refine .bind (apart_expression _) fun cond => .after (.evaluateWithDefaults _) fun v => ?_
  split
  · exact .reject _ _
  · exact .pure _
  · exact .reject _ _

theorem apart_memberAttributes (m : StructMember) (t : Ty) : Apart (memberAttributes m t) := by
  refine .after (reads_choice _ _ _) fun builtin => ?_
  have rest : Apart (do
      let location ← unsignedAttr m.location "location"
      if builtin.value.isSome && location.value.isSome then reject m.span (.builtinAndLocation m.name)
      return { m with builtin, location : StructMember }) := by
    refine .bind (apart_unsignedAttr _ _) fun location => ?_
    simp only [reject_bind]
    split
    · exact .reject _ _
    · exact .pure _
  dsimp only
  split
  · simp only [reject_bind]
    split
    · exact .reject _ _
    · exact rest
  · exact rest

theorem apart_structMembers (struct : Text) (seen : List Text) (ms : List StructMember) :
    Apart (structMembers struct seen ms) := by
  induction ms generalizing seen with
  | nil => exact .pure _
  | cons m ms ih =>
    refine .bind (apart_memberExists m) fun there => ?_
    split
    · exact ih seen
    simp only [reject_bind]
    split
    · exact .reject _ _
    · exact .bind (apart_typeNote _) fun t => .bind (apart_memberAttributes _ _) fun m' => .bind (ih _) fun ms' =>
        .pure _

theorem apart_declareStruct (span : Span) (d : StructDecl) : Apart (declareStruct span d) := by
  refine .after (reads_requireModuleScope _ _) fun _ => .after (reads_choice _ _ _) fun layout => ?_
  refine .bind (apart_boolAttr _) fun exported => .bind (apart_structMembers _ _ _) fun members => ?_
  refine .bind (apart_structId _) fun id => ?_
  refine .bind (.modifySession (fun _ => ⟨rfl, rfl, rfl, rfl⟩) fun s x hx => ?_) fun _ => ?_
  · rcases List.mem_cons.mp hx with rfl | hx
    · exact .inr rfl
    · exact .inl hx
  exact .bind (apart_publish _ _ _ _) fun _ => .bind (apart_declare _ _ _) fun _ => .pure _

theorem apart_takeBinding (v : External) (set binding : UInt32) : Apart (takeBinding v set binding) := by
  have take : Apart (modifyDraft fun d => { d with bindings := ((set, binding), v.name) :: d.bindings }) :=
    .redraft (fun _ => rfl) fun _ => List.subset_cons_self _ _
  refine .after .getDraft fun d => ?_
  simp only [reject_bind]
  split
  · refine .after .read fun site => ?_
    split
    · exact .reject _ _
    · exact take
  · exact take

theorem reads_checkResourceType (v : External) (t : Ty) : Reads (checkResourceType v t) := by
  unfold checkResourceType
  split <;> first | exact .pure _ | exact .reject _ _

theorem apart_declareResource (set : Attr UInt32) (v : External) : Apart (declareResource set v) := by
  refine .bind (apart_typeNote _) fun t => .after (reads_checkResourceType _ _) fun _ => ?_
  refine .bind (apart_unsignedAttr _ _) fun ownSet => .bind (apart_unsignedAttr _ _) fun binding => ?_
  split
  · exact .reject _ _
  refine .bind (apart_takeBinding _ _ _) fun _ => .bind (apart_variableId _) fun id => ?_
  exact .bind (apart_addVariable _ _) fun _ => .bind (apart_declare _ _ _) fun _ => .pure _

theorem apart_declareResources (set : Attr UInt32) (vs : List External) : Apart (declareResources set vs) := by
  induction vs with
  | nil => exact .pure _
  | cons v vs ih => exact .bind (apart_declareResource set v) fun v' => .bind ih fun vs' => .pure _

theorem apart_declareExternals (span : Span) (set : Attr UInt32) (vars : List External) :
    Apart (declareExternals span set vars) :=
  .after (reads_requireModuleScope _ _) fun _ => .bind (apart_unsignedAttr _ _) fun _ =>
    .bind (apart_declareResources _ _) fun _ => .pure _

theorem apart_expressionOr (e : Expr) : Apart (if e.isAbsent then pure e else expression e) := by
  split
  · exact .pure _
  · exact apart_expression e

theorem apart_declareVariable (span : Span) (d : VarDecl) : Apart (declareVariable span d) := by
  unfold declareVariable
  simp only [ite_bind, reject_bind]
  refine .bind (apart_typeNoteOr _ _) fun t => .bind (apart_expressionOr _) fun init => ?_
  generalize (if t.1.isKnown = true then t.1 else init.type) = type
  have stored : Apart (do
      let id ← variableId d.id
      addVariable id { name := d.name, type }
      declare d.name span (.variable id)
      return { d with type := t.2, init, id : VarDecl }) :=
    .bind (apart_variableId _) fun id => .bind (apart_addVariable _ _) fun _ => .bind (apart_declare _ _ _) fun _ =>
      .pure _
  split
  · split
    · exact .reject _ _
    split
    · exact .reject _ _
    split
    · exact .reject _ _
    · exact stored
  · split
    · exact .reject _ _
    · exact stored

theorem apart_annotateParams (ps : List FnParam) : Apart (annotateParams ps) := by
  induction ps with
  | nil => exact .pure _
  | cons p ps ih => exact .bind (apart_typeNote _) fun t => .bind ih fun ps' => .pure _

theorem apart_declareFunction (span : Span) (h : FnHead) : Apart (declareFunction span h) := by
  unfold declareFunction
  simp only [ite_bind]
  refine .after (reads_requireModuleScope _ _) fun _ => .bind (apart_functionAttributes _ _) fun head => ?_
  refine .bind (apart_annotateParams _) fun params => .bind (apart_typeNoteOr _ _) fun result => ?_
  refine .bind (apart_functionId _) fun id => .bind (.modifySession fun _ => ⟨rfl, rfl, rfl, rfl⟩) fun _ => ?_
  exact .bind (apart_publish _ _ _ _) fun _ => .bind (apart_declare _ _ _) fun _ => .pure _

theorem apart_declareLocal (name : Text) (id : Int) (t : Ty) : Apart (declareLocal name id t) := by
  refine .bind (apart_addVariable _ _) fun _ => .after .getDraft fun d => ?_
  split
  · exact .bind (.redraft fun _ => rfl) fun _ => .pure _
  · exact .pure _

theorem apart_declareParams (ps : List FnParam) (ts : List Ty) : Apart (declareParams ps ts) := by
  induction ps generalizing ts with
  | nil => exact .pure _
  | cons p ps ih =>
    cases ts with
    | nil => exact .pure _
    | cons t ts =>
      refine .bind (apart_variableId _) fun id => .bind (apart_declareLocal _ _ _) fun new => ?_
      simp only [reject_bind]
      split
      · exact .reject _ _
      · exact .bind (ih ts) fun ps' => .pure _

theorem apart_declareItems (moduleName : Text) (symbols : List (Text × Binding)) (items : List ImportItem) :
    Apart (declareItems moduleName symbols items) := by
  induction items with
  | nil => exact .pure _
  | cons item items ih =>
    unfold declareItems
    simp only [reject_bind]
    split
    · exact .reject _ _
    · exact .bind (.forM fun x => apart_declare _ _ _) fun _ => ih

theorem reads_constantCondition (cond : Expr) : Reads (constantCondition cond) := by
  unfold constantCondition
  simp only [reject_bind]
  split
  · exact .pure _
  split
  · exact .reject _ _
  refine .bind (.evaluateWithDefaults _) fun fallback => ?_
  split
  · exact .reject _ _
  · refine .bind (.evaluate _) fun v => ?_
    split <;> exact .pure _

theorem apart_constantConditions (arms : List (Expr × Stmt)) : Apart (constantConditions arms) := by
  induction arms with
  | nil => exact .pure _
  | cons arm arms ih =>
    exact .bind (apart_expression _) fun c => .after (reads_constantCondition c) fun known => .bind ih fun cs => .pure _

theorem reads_checkBound (t : Ty) (e : Expr) : Reads (checkBound t e) := by
  unfold checkBound
  split
  · exact .reject _ _
  · exact .pure _

theorem apart_unrollAttr (a : Attr Unroll) : Apart (unrollAttr a) := .of_reads (reads_choice _ _ _)

theorem apart_rangeHead (h : RangeHead) : Apart (rangeHead h) := by
  unfold rangeHead
  simp only [ite_bind, reject_bind]
  refine .bind (apart_expression _) fun start => .bind (apart_expression _) fun stop => ?_
  refine .bind (apart_expressionOr _) fun step => .bind (apart_unrollAttr _) fun unroll => ?_
  split
  · split
    · exact .reject _ _
    · exact .after (reads_checkBound _ _) fun _ => .after (reads_checkBound _ _) fun _ => .pure _
  · exact .pure _

theorem apart_eachHead (h : EachHead) : Apart (eachHead h) := by
  refine .bind (apart_expression _) fun array => .bind (apart_unrollAttr _) fun unroll => ?_
  split <;> first | exact .pure _ | exact .reject _ _

theorem apart_supplied (act : StateM Supply α) : Apart (supplied act) :=
  .bind .get fun _ => .bind (.modifySession fun _ => ⟨rfl, rfl, rfl, rfl⟩) fun _ =>
    .bind (.redraft fun _ => rfl) fun _ => .pure _

theorem apart_returned (span : Span) (f : Function) (e : Expr) : Apart (returned span f e) := by
  unfold returned
  simp only [ite_bind, reject_bind]
  split
  · exact .bind (apart_expressionOr e) fun e' => .pure _
  split
  · split
    · exact .reject _ _
    · exact .pure _
  refine .bind (apart_expression e) fun e' => ?_
  split
  · exact .reject _ _
  split
  · exact .reject _ _
  · exact .pure _

theorem reads_requireFunction (span : Span) : Reads (requireFunction span) := by
  refine .bind .read fun site => ?_
  split
  · exact .pure _
  · exact .reject _ _

end Check

end Shading
