import Shading.Proofs.Check.Gathering
import Shading.Proofs.Check.Loop
import Shading.Proofs.Check.Signature
import Shading.Proofs.Check.Upholding
import Shading.Proofs.Typing.Regular

/-! Checks of declarations in any session, other than those of constants and of options. What is declared is of a proper
type, and the declaration that results is sound. -/
namespace Shading.Check

variable {α β : Type} {Γ : Int → Ty → Prop}

/-- Names that are known from here on. -/
theorem State.Typed.bound {site : Site} {σ : State} {d : Draft} (h : σ.Typed)
    (hbinds : Binds site σ.draft d Binding.Known) : State.Typed { σ with draft := d } := by
  refine ⟨h.session, fun level hlevel b hb => ?_, fun b hb => ?_, hbinds.wildcard.trans h.wildcard, fun s hs => ?_⟩
  · rcases hbinds.scopes level hlevel b hb with ⟨outer, houter, hb⟩ | hb
    · exact h.scopes outer houter b hb
    · exact hb
  · rcases hbinds.exports b hb with hb | hb
    · exact h.exports b hb
    · exact hb
  · exact h.pending s (hbinds.pending ▸ hs)

theorem upholds_declare (name : Text) (span : Span) {b : Binding} (hb : b.Known) :
    Upholds Γ (declare name span b) fun _ => True := by
  refine ⟨fun hσ _ h => ?_⟩
  obtain ⟨d, rfl, hbinds⟩ := declare_ok h
  exact ⟨hσ.bound (hbinds.of_eq hb), .refl _, trivial⟩

theorem upholds_publish (name : Text) (exported : Attr Bool) {b : Binding} (span : Span) (hb : b.Known) :
    Upholds Γ (publish name exported b span) fun _ => True := by
  refine ⟨fun hσ _ h => ?_⟩
  obtain ⟨d, rfl, hbinds⟩ := publish_ok h
  exact ⟨hσ.bound (hbinds.of_eq hb), .refl _, trivial⟩

/-- Tables that get other entries than constants. -/
theorem Upholds.modifySession {f : Session → Session} (hf : ∀ s : Session, s.Typed → (f s).Typed)
    (hsteady : ∀ s : Session, s.Steady (f s)) : Upholds Γ (Check.modifySession f) fun _ => True := by
  refine ⟨fun {site σ u σ'} hσ _ h => ?_⟩
  rw [modifySession_ok.mp h]
  refine ⟨⟨hf _ hσ.session, hσ.scopes, hσ.exports, hσ.wildcard, fun s hs => ?_⟩, hsteady _, trivial⟩
  rw [(hsteady _).recorded]
  exact hσ.pending s hs

/-- A change of what belongs to a module, other than what names stand for. -/
theorem Upholds.redraft {f : Draft → Draft} (hscopes : ∀ d, (f d).scopes = d.scopes)
    (hexports : ∀ d, (f d).exports = d.exports) (hwildcard : ∀ d, (f d).wildcard = d.wildcard)
    (hpending : ∀ d, (f d).pending = d.pending) : Upholds Γ (modifyDraft f) fun _ => True := by
  refine ⟨fun {site σ u σ'} hσ _ h => ?_⟩
  rw [modifyDraft_ok.mp h]
  refine ⟨⟨hσ.session, ?_, ?_, (hwildcard _).trans hσ.wildcard, ?_⟩, .refl _, trivial⟩
  · exact (hscopes σ.draft).symm ▸ hσ.scopes
  · exact (hexports σ.draft).symm ▸ hσ.exports
  · exact (hpending σ.draft).symm ▸ hσ.pending

/-- A number is kept, or the next one of its kind is given out. -/
theorem upholds_number (id : Int) (next : Session → Int) {f : Int → Session → Session}
    (hf : ∀ n (s : Session), s.Typed → (f n s).Typed) (hsteady : ∀ n (s : Session), s.Steady (f n s)) :
    Upholds Γ (do
      if id != 0 then return id
      let n := next (← getSession)
      modifySession (f n)
      return n) fun n => id ≠ 0 → n = id := by
  dsimp only
  split
  · exact .pure fun _ => rfl
  · rename_i hzero
    refine .reading .getSession fun s => .bind (.modifySession (hf _) (hsteady _)) fun _ _ => .pure fun hid => ?_
    exact absurd (bne_iff_ne.mpr hid) hzero

theorem upholds_variableId (id : Int) : Upholds Γ (variableId id) fun n => id ≠ 0 → n = id :=
  upholds_number id (·.nextVar) (f := fun n s => { s with nextVar := Serial.next n })
    (fun _ _ h => h.of_same rfl rfl rfl rfl rfl rfl rfl) fun _ _ => ⟨rfl, rfl, rfl⟩

theorem upholds_constantId (id : Int) : Upholds Γ (constantId id) fun n => id ≠ 0 → n = id :=
  upholds_number id (·.nextConst) (f := fun n s => { s with nextConst := Serial.next n })
    (fun _ _ h => h.of_same rfl rfl rfl rfl rfl rfl rfl) fun _ _ => ⟨rfl, rfl, rfl⟩

theorem upholds_functionId (id : Int) : Upholds Γ (functionId id) fun n => id ≠ 0 → n = id :=
  upholds_number id (·.nextFunc) (f := fun n s => { s with nextFunc := Serial.next n })
    (fun _ _ h => h.of_same rfl rfl rfl rfl rfl rfl rfl) fun _ _ => ⟨rfl, rfl, rfl⟩

theorem upholds_structId (id : Int) : Upholds Γ (structId id) fun n => id ≠ 0 → n = id :=
  upholds_number id (·.nextStruct) (f := fun n s => { s with nextStruct := Serial.next n })
    (fun _ _ h => h.of_same rfl rfl rfl rfl rfl rfl rfl) fun _ _ => ⟨rfl, rfl, rfl⟩

theorem upholds_aliasId (id : Int) : Upholds Γ (aliasId id) fun n => id ≠ 0 → n = id :=
  upholds_number id (·.nextAlias) (f := fun n s => { s with nextAlias := Serial.next n })
    (fun _ _ h => h.of_same rfl rfl rfl rfl rfl rfl rfl) fun _ _ => ⟨rfl, rfl, rfl⟩

theorem upholds_addVariable (id : Int) {v : Variable} (hv : v.type.Proper) :
    Upholds Γ (addVariable id v) fun _ => True := by
  refine .modifySession (fun s hs => ?_) fun _ => ⟨rfl, rfl, rfl⟩
  exact { hs with vars := List.forall_mem_cons.mpr ⟨hv, hs.vars⟩ }

theorem upholds_declareLocal (name : Text) (id : Int) {t : Ty} (ht : t.Proper) :
    Upholds Γ (declareLocal name id t) fun _ => True := by
  refine ⟨fun {site σ new σ'} hσ _ h => ?_⟩
  obtain ⟨d, rfl, hbinds⟩ := declareLocal_ok h
  have hsession : Session.Typed { σ.session with vars := (id, { name, type := t }) :: σ.session.vars } :=
    { hσ.session with vars := List.forall_mem_cons.mpr ⟨ht, hσ.session.vars⟩ }
  have hbound := hσ.bound (hbinds.of_eq (B := Binding.Known) trivial)
  exact ⟨⟨hsession, hbound.scopes, hbound.exports, hbound.wildcard, hbound.pending⟩, ⟨rfl, rfl, rfl⟩, trivial⟩

section

variable {e : Expr}

/-- A value that is known is of the type of its expression. -/
theorem upholds_evaluate (he : e.Typed Γ) : Upholds Γ (evaluate e) fun r => ∀ v, r = .ok v → v.HasType e.type := by
  refine .of_reads (.evaluate e) fun hσ hΓ h v hv => ?_
  obtain ⟨rfl, -⟩ := evaluate_ok.mp h
  exact (he.sound.hasType (hΓ ▸ hσ.session.suits) e hv).2

theorem upholds_evaluateWithDefaults (he : e.Typed Γ) :
    Upholds Γ (evaluateWithDefaults e) fun r => ∀ v, r = .ok v → v.HasType e.type := by
  refine .of_reads (.evaluateWithDefaults e) fun hσ hΓ h v hv => ?_
  obtain ⟨rfl, -⟩ := evaluateWithDefaults_ok.mp h
  exact (he.sound.hasType (hΓ ▸ hσ.session.suits_default) e hv).2

theorem upholds_typeNote (h : e.Regular) : Upholds Γ ( annotation e) fun r => r.1.Proper ∧ r.2.Typed Γ := by
  refine .bind (upholds_typeOf e h) fun r hr => .bind (upholds_asType e hr) fun t ht => .pure ?_
  rw [ht.isKnown, if_pos rfl]
  exact ⟨ht, rfl, .ofType _ ht⟩

/-- A type that may be left out. -/
theorem upholds_typeNoteOr (t : Ty) (h : e.Regular) :
    Upholds Γ (if e.isAbsent then pure (t, e) else annotation e) fun r =>
      (e.isAbsent ∧ r = (t, e)) ∨ r.1.Proper ∧ r.2.Typed Γ := by
  split
  · rename_i habsent
    exact .pure (.inl ⟨habsent, rfl⟩)
  · exact (upholds_typeNote h).post fun _ hr => .inr hr

/-- An expression that may be left out. -/
theorem upholds_expressionOr (h : e.Regular) :
    Upholds Γ (if e.isAbsent then pure e else expression e) fun r =>
      (e.isAbsent ∧ r = e) ∨ e.isAbsent = false ∧ r.Typed Γ := by
  split
  · rename_i habsent
    exact .pure (.inl ⟨habsent, rfl⟩)
  · rename_i hpresent
    exact (upholds_expression e h).post fun _ hr => .inr ⟨by simpa using hpresent, hr⟩

-- Attributes. Once they are known, nothing is left of their arguments.
theorem upholds_choice {a : Attr α} (ofName? : Text → Option α) (unknown : Text → Rejection) :
    Upholds Γ (choice a ofName? unknown) fun a' => a'.expr.isAbsent := by
  unfold choice
  split
  · rename_i habsent
    exact .pure habsent
  refine .reading (reads_nameArgument _) fun name => ?_
  split
  · exact .pure rfl
  · exact .reject

theorem upholds_constantArgument (h : e.Regular) (what : Text) :
    Upholds Γ (constantArgument e what) fun _ => True :=
  .bind (upholds_expression e h) fun _ _ => .of_reads (reads_constantOf _ _ _) fun _ _ _ => trivial

theorem upholds_boolAttr {a : Attr Bool} (h : a.expr.Regular) : Upholds Γ (boolAttr a) fun a' => a'.expr.isAbsent := by
  unfold boolAttr
  split
  · rename_i habsent
    exact .pure habsent
  refine .bind (upholds_constantArgument h _) fun v _ => ?_
  split
  · exact .pure rfl
  · exact .reject

theorem upholds_unsignedAttr {a : Attr UInt32} (h : a.expr.Regular) (what : Text) :
    Upholds Γ (unsignedAttr a what) fun a' => a'.expr.isAbsent := by
  unfold unsignedAttr
  split
  · rename_i habsent
    exact .pure habsent
  · exact .bind (upholds_expression _ h) fun _ _ => .reading (reads_unsignedOf _ _ _) fun _ => .pure rfl

theorem upholds_workgroupSizes {es : List Expr} (h : ∀ e ∈ es, e.Regular) (sizes : List UInt32) :
    Upholds Γ (workgroupSizes es sizes) fun _ => True := by
  induction es generalizing sizes with
  | nil => exact .pure trivial
  | cons e es ih =>
    rw [List.forall_mem_cons] at h
    refine .bind (upholds_constantArgument h.1 _) fun v _ => ?_
    dsimp only
    exact .reading (reads_addSizes _ _ _) fun sizes => ih h.2 sizes

theorem upholds_workgroupAttr {a : Attr (UInt32 × UInt32 × UInt32)} (h : a.expr.Regular) :
    Upholds Γ (workgroupAttr a) fun a' => a'.expr.isAbsent := by
  unfold workgroupAttr
  split
  · rename_i habsent
    exact .pure habsent
  split
  · rename_i i t args heq
    have hargs : ∀ e ∈ args, e.Regular := fun e he => h.child (by simp [heq, Expr.children, he])
    exact .bind (upholds_workgroupSizes hargs _) fun _ _ => .pure rfl
  · exact .bind (upholds_workgroupSizes (List.forall_mem_singleton.mpr h) _) fun _ _ => .pure rfl

end

theorem upholds_functionAttributes (span : Span) {h : FnHead} (hh : ∀ e ∈ Stmt.headExprs h, e.Regular) :
    Upholds Γ (functionAttributes span h) fun h' =>
      (∀ e ∈ [h'.stage.expr, h'.earlyTests.expr, h'.depthWrite.expr, h'.workgroup.expr, h'.exported.expr], e.isAbsent) := by
  refine .bind (upholds_choice _ _) fun stage hstage => ?_
  refine .bind (upholds_boolAttr (hh _ (by simp [Stmt.headExprs]))) fun earlyTests hearlyTests => ?_
  refine .bind (upholds_choice _ _) fun depthWrite hdepthWrite => ?_
  refine .bind (upholds_workgroupAttr (hh _ (by simp [Stmt.headExprs]))) fun workgroup hworkgroup => ?_
  refine .bind (upholds_boolAttr (hh _ (by simp [Stmt.headExprs]))) fun exported hexported => ?_
  simp only [reject_bind]
  split
  · exact .reject
  split
  · exact .reject
  split
  · exact .reject
  split
  · exact .reject
  · exact .pure (by simp [hstage, hearlyTests, hdepthWrite, hworkgroup, hexported])

theorem upholds_aliasTarget {e : Expr} (h : e.Regular) :
    Upholds Γ (aliasTarget e) fun e' => e'.IsTarget ∧ e'.Typed Γ := by
  refine .bind (upholds_typeOf e h) fun r hr => ?_
  split
  · refine .pure ⟨trivial, .of_children (hr _ rfl) trivial fun c hc => ?_⟩
    cases hc
  · exact .pure ⟨hr _ rfl, rfl, .ofType _ (hr _ rfl)⟩
  refine .bind (upholds_expression e h) fun e' he' => ?_
  split
  case h_3 i t => 
    have hproper : t.Proper := by
      have htype : i.type = t := he'.derived
      rw [← htype]
      exact he'.proper
    exact .pure ⟨hproper, he'⟩
  case h_5 => exact he'.derived.elim
  case h_6 => exact .reject
  all_goals exact .pure ⟨trivial, he'⟩

theorem upholds_declareAlias {span : Span} {d : AliasDecl} (h : (Stmt.alias span d).Regular) :
    Upholds Γ (declareAlias span d) fun d' => (Stmt.alias span d').Sound Γ := by
  refine .bind (upholds_aliasTarget (h.expr (by simp [Stmt.ownExprs]))) fun target ⟨htarget, htyped⟩ => ?_
  refine .bind (upholds_boolAttr (h.expr (by simp [Stmt.ownExprs]))) fun exported hexported => ?_
  refine .bind (upholds_aliasId _) fun id _ => .bind (upholds_publish _ _ _ htarget) fun _ _ => ?_
  refine .bind (upholds_declare _ _ htarget) fun _ _ => .pure ?_
  exact (Stmt.sound_alias _ _).mpr ⟨htyped.sound, .of_isAbsent hexported⟩

theorem upholds_memberExists {m : StructMember} (h : m.cond.Regular) : Upholds Γ (memberExists m) fun _ => True := by
  unfold memberExists
  split
  · exact .pure trivial
  refine .bind (upholds_expression _ h) fun cond _ => .reading (.evaluateWithDefaults _) fun v => ?_
  split
  · exact .reject
  · exact .pure trivial
  · exact .reject

/-- A member whose type is known, and of whose attributes and condition nothing is left. -/
structure MemberTyped (Γ : Int → Ty → Prop) (m : StructMember × Ty) : Prop where
  proper : m.2.Proper
  sound : ∀ e ∈ Stmt.memberExprs m.1, e.Sound Γ

theorem upholds_memberAttributes {m : StructMember} (t : Ty) (htype : m.type.Sound Γ) (hcond : m.cond.Sound Γ)
    (hlocation : m.location.expr.Regular) :
    Upholds Γ (memberAttributes m t) fun m' => ∀ e ∈ Stmt.memberExprs m', e.Sound Γ := by
  refine .bind (upholds_choice _ _) fun builtin hbuiltin => ?_
  have rest : Upholds Γ (do
      let location ← unsignedAttr m.location "location"
      if builtin.value.isSome && location.value.isSome then reject m.span (.builtinAndLocation m.name)
      return { m with builtin, location : StructMember }) fun m' => ∀ e ∈ Stmt.memberExprs m', e.Sound Γ := by
    refine .bind (upholds_unsignedAttr hlocation _) fun location hlocation' => ?_
    simp only [reject_bind]
    split
    · exact .reject
    · refine .pure ?_
      simp [Stmt.memberExprs, htype, hcond, Expr.Sound.of_isAbsent hbuiltin, Expr.Sound.of_isAbsent hlocation']
  dsimp only
  split
  · simp only [reject_bind]
    split
    · exact .reject
    · exact rest
  · exact rest

theorem upholds_structMembers (struct : Text) (seen : List Text) {ms : List StructMember}
    (h : ∀ e ∈ ms.flatMap Stmt.memberExprs, e.Regular) :
    Upholds Γ (structMembers struct seen ms) fun rs => ∀ r ∈ rs, MemberTyped Γ r := by
  induction ms generalizing seen with
  | nil => exact .pure fun _ hr => absurd hr List.not_mem_nil
  | cons m ms ih =>
    have hm : ∀ e ∈ Stmt.memberExprs m, e.Regular := fun e he => h e (List.mem_append_left _ he)
    have hms : ∀ e ∈ ms.flatMap Stmt.memberExprs, e.Regular := fun e he => h e (List.mem_append_right _ he)
    refine .bind (upholds_memberExists (hm _ (by simp [Stmt.memberExprs]))) fun there _ => ?_
    split
    · exact ih seen hms
    simp only [reject_bind]
    split
    · exact .reject
    refine .bind (upholds_typeNote (hm _ (by simp [Stmt.memberExprs]))) fun r hr => ?_
    obtain ⟨hproper, htyped⟩ := hr
    refine .bind (upholds_memberAttributes _ htyped.sound .absent (hm _ (by simp [Stmt.memberExprs]))) fun m' hm' => ?_
    exact .bind (ih _ hms) fun rs hrs => .pure (List.forall_mem_cons.mpr ⟨⟨hproper, hm'⟩, hrs⟩)

theorem upholds_declareStruct {span : Span} {d : StructDecl} (h : (Stmt.struct span d).Regular) :
    Upholds Γ (declareStruct span d) fun d' => (Stmt.struct span d').Sound Γ := by
  refine .reading (reads_requireModuleScope _ _) fun _ => .bind (upholds_choice _ _) fun layout hlayout => ?_
  refine .bind (upholds_boolAttr (h.expr (by simp [Stmt.ownExprs]))) fun exported hexported => ?_
  refine .bind (upholds_structMembers _ _ fun e he => h.expr (by simp [Stmt.ownExprs, he])) fun members hmembers => ?_
  refine .bind (upholds_structId _) fun id _ => .bind (.modifySession (fun s hs => ?_) fun _ => ⟨rfl, rfl, rfl⟩) fun _ _ => ?_
  · refine { hs with structs := List.forall_mem_cons.mpr ⟨?_, hs.structs⟩ }
    refine (Ty.properMembers_iff _).mpr fun m hm => ?_
    obtain ⟨r, hr, rfl⟩ := List.mem_map.mp hm
    exact (hmembers r hr).proper
  refine .bind (upholds_publish _ _ _ trivial) fun _ _ => .bind (upholds_declare _ _ trivial) fun _ _ => .pure ?_
  refine (Stmt.sound_iff rfl).mpr ⟨trivial, fun e he => ?_, fun _ hc => absurd hc List.not_mem_nil⟩
  rcases List.mem_cons.mp he with rfl | he
  · exact .of_isAbsent hexported
  rcases List.mem_cons.mp he with rfl | he
  · exact .of_isAbsent hlayout
  obtain ⟨m, hm, he⟩ := List.mem_flatMap.mp he
  obtain ⟨r, hr, rfl⟩ := List.mem_map.mp hm
  exact (hmembers r hr).sound e he

theorem upholds_takeBinding (v : External) (set binding : UInt32) :
    Upholds Γ (takeBinding v set binding) fun _ => True := by
  have take : Upholds Γ (modifyDraft fun d => { d with bindings := ((set, binding), v.name) :: d.bindings })
      fun _ => True := .redraft (fun _ => rfl) (fun _ => rfl) (fun _ => rfl) fun _ => rfl
  refine .reading .getDraft fun d => ?_
  simp only [reject_bind]
  split
  · refine .reading .read fun site => ?_
    split
    · exact .reject
    · exact take
  · exact take

theorem upholds_declareResource (set : Attr UInt32) {v : External} (h : ∀ e ∈ Stmt.externalExprs v, e.Regular) :
    Upholds Γ (declareResource set v) fun v' => ∀ e ∈ Stmt.externalExprs v', e.Sound Γ := by
  refine .bind (upholds_typeNote (h _ (by simp [Stmt.externalExprs]))) fun r ⟨hproper, htyped⟩ => ?_
  refine .reading (reads_checkResourceType _ _) fun _ => ?_
  refine .bind (upholds_unsignedAttr (h _ (by simp [Stmt.externalExprs])) _) fun ownSet _ => ?_
  refine .bind (upholds_unsignedAttr (h _ (by simp [Stmt.externalExprs])) _) fun binding hbinding => ?_
  split
  · exact .reject
  refine .bind (upholds_takeBinding _ _ _) fun _ _ => .bind (upholds_variableId _) fun id _ => ?_
  refine .bind (upholds_addVariable _ hproper) fun _ _ => .bind (upholds_declare _ _ trivial) fun _ _ => .pure ?_
  simp [Stmt.externalExprs, Attr.known, htyped.sound, Expr.Sound.of_isAbsent hbinding, Expr.Sound.absent]

theorem upholds_declareResources (set : Attr UInt32) {vs : List External}
    (h : ∀ e ∈ vs.flatMap Stmt.externalExprs, e.Regular) :
    Upholds Γ (declareResources set vs) fun vs' => ∀ e ∈ vs'.flatMap Stmt.externalExprs, e.Sound Γ := by
  induction vs with
  | nil => exact .pure fun _ he => absurd he List.not_mem_nil
  | cons v vs ih =>
    refine .bind (upholds_declareResource set fun e he => h e (List.mem_append_left _ he)) fun v' hv' => ?_
    refine .bind (ih fun e he => h e (List.mem_append_right _ he)) fun vs' hvs' => .pure ?_
    exact List.forall_mem_append.mpr ⟨hv', hvs'⟩

theorem upholds_declareExternals {span : Span} {set : Attr UInt32} {vars : List External}
    (h : (Stmt.external span set vars).Regular) :
    Upholds Γ (declareExternals span set vars) fun r => (Stmt.external span r.1 r.2).Sound Γ := by
  refine .reading (reads_requireModuleScope _ _) fun _ => ?_
  refine .bind (upholds_unsignedAttr (h.expr List.mem_cons_self) _) fun set' hset' => ?_
  refine .bind (upholds_declareResources _ fun e he => h.expr (List.mem_cons_of_mem _ he)) fun vars' hvars' => .pure ?_
  refine (Stmt.sound_iff rfl).mpr ⟨trivial, ?_, fun _ hc => absurd hc List.not_mem_nil⟩
  exact List.forall_mem_cons.mpr ⟨.of_isAbsent hset', hvars'⟩

theorem upholds_declareVariable {span : Span} {d : VarDecl} (h : (Stmt.letVar span d).Regular) :
    Upholds Γ (declareVariable span d) fun d' => (Stmt.letVar span d').Sound Γ := by
  have hself : d.type.isPresent ∨ d.init.isPresent := h.self rfl
  unfold declareVariable
  simp only [ite_bind, reject_bind]
  refine .bind (upholds_typeNoteOr _ (h.expr (by simp [Stmt.ownExprs]))) fun t ht => ?_
  refine .bind (upholds_expressionOr (h.expr (by simp [Stmt.ownExprs]))) fun init hinit => ?_
  have hproper : (if t.1.isKnown = true then t.1 else init.type).Proper := by
    split
    · rename_i hknown
      rcases ht with ⟨-, rfl⟩ | ⟨ht, -⟩
      · cases hknown
      · exact ht
    · rename_i hunknown
      rcases hinit with ⟨hinit, -⟩ | ⟨-, hinit⟩
      · rcases ht with ⟨htype, -⟩ | ⟨ht, -⟩
        · simp [Expr.isPresent, htype, hinit] at hself
        · exact absurd ht.isKnown hunknown
      · exact hinit.proper
  have hsound : (Stmt.letVar span { d with type := t.2, init }).Sound Γ := by
    refine (Stmt.sound_letVar _ _).mpr ⟨?_, ?_, ?_⟩
    · rcases hinit with ⟨hinit, -⟩ | ⟨-, hinit⟩
      · rcases ht with ⟨htype, -⟩ | ⟨-, ht⟩
        · simp [Expr.isPresent, htype, hinit] at hself
        · exact .inl (by simp [Expr.isPresent, ht.present])
      · exact .inr (by simp [Expr.isPresent, hinit.present])
    · rcases ht with ⟨htype, rfl⟩ | ⟨-, ht⟩
      · exact .of_isAbsent htype
      · exact ht.sound
    · rcases hinit with ⟨hinit, rfl⟩ | ⟨-, hinit⟩
      · exact .of_isAbsent hinit
      · exact hinit.sound
  generalize (if t.1.isKnown = true then t.1 else init.type) = type at hproper
  have stored : Upholds Γ (do
      let id ← variableId d.id
      addVariable id { name := d.name, type }
      declare d.name span (.variable id)
      return { d with type := t.2, init, id : VarDecl }) fun d' => (Stmt.letVar span d').Sound Γ := by
    refine .bind (upholds_variableId _) fun id _ => .bind (upholds_addVariable _ hproper) fun _ _ => ?_
    refine .bind (upholds_declare _ _ trivial) fun _ _ => .pure ?_
    rw [Stmt.sound_letVar] at hsound ⊢
    exact hsound
  split
  · split
    · exact .reject
    split
    · exact .reject
    split
    · exact .reject
    · exact stored
  · split
    · exact .reject
    · exact stored

theorem upholds_annotateParams {ps : List FnParam} (h : ∀ p ∈ ps, p.type.Regular) :
    Upholds Γ (annotateParams ps) fun rs => ∀ r ∈ rs, r.2.Proper ∧ r.1.type.Sound Γ := by
  induction ps with
  | nil => exact .pure fun _ hr => absurd hr List.not_mem_nil
  | cons p ps ih =>
    rw [List.forall_mem_cons] at h
    refine .bind (upholds_typeNote h.1) fun r ⟨hproper, htyped⟩ => .bind (ih h.2) fun rs hrs => .pure ?_
    exact List.forall_mem_cons.mpr ⟨⟨hproper, htyped.sound⟩, hrs⟩

/-- The head of a function, and what is known of the function. -/
structure HeadTyped (Γ : Int → Ty → Prop) (r : FnHead × Function) : Prop where
  sound : ∀ e ∈ Stmt.headExprs r.1, e.Sound Γ
  params : ∀ t ∈ r.2.params, t.Proper

theorem upholds_declareFunction {span : Span} {h : FnHead} (hh : ∀ e ∈ Stmt.headExprs h, e.Regular) :
    Upholds Γ (declareFunction span h) (HeadTyped Γ) := by
  have hparams : ∀ p ∈ h.params, p.type.Regular := fun p hp => hh _ (by simp only [Stmt.headExprs]; grind)
  unfold declareFunction
  simp only [ite_bind]
  refine .reading (reads_requireModuleScope _ _) fun _ => .bind (upholds_functionAttributes span hh) fun head hhead => ?_
  refine .bind (upholds_annotateParams hparams) fun params hparams' => ?_
  refine .bind (upholds_typeNoteOr _ (hh _ (by simp [Stmt.headExprs]))) fun result hresult => ?_
  refine .bind (upholds_functionId _) fun id _ => .bind (.modifySession (fun s hs => ?_) fun _ => ⟨rfl, rfl, rfl⟩) fun _ _ => ?_
  · refine { hs with functions := List.forall_mem_cons.mpr ⟨⟨?_, ?_⟩, hs.functions⟩ }
    · refine (Ty.properList_iff _).mpr fun t ht => ?_
      obtain ⟨r, hr, rfl⟩ := List.mem_map.mp ht
      exact (hparams' r hr).1
    · rcases hresult with ⟨-, rfl⟩ | ⟨hresult, -⟩
      · trivial
      · exact hresult
  refine .bind (upholds_publish _ _ _ trivial) fun _ _ => .bind (upholds_declare _ _ trivial) fun _ _ => .pure ⟨?_, ?_⟩
  · refine List.forall_mem_append.mpr ⟨List.forall_mem_append.mpr ⟨fun e he => .of_isAbsent (hhead e he), ?_⟩, ?_⟩
    · intro e he
      obtain ⟨p, hp, rfl⟩ := List.mem_map.mp he
      obtain ⟨r, hr, rfl⟩ := List.mem_map.mp hp
      exact (hparams' r hr).2
    · refine List.forall_mem_singleton.mpr ?_
      rcases hresult with ⟨habsent, rfl⟩ | ⟨-, hresult⟩
      · exact .of_isAbsent habsent
      · exact hresult.sound
  · intro t ht
    obtain ⟨r, hr, rfl⟩ := List.mem_map.mp ht
    exact (hparams' r hr).1

/-- Parameters keep their types. -/
theorem upholds_declareParams {ps : List FnParam} {ts : List Ty} {P : Expr → Prop} (hps : ∀ p ∈ ps, P p.type)
    (hts : ∀ t ∈ ts, t.Proper) : Upholds Γ (declareParams ps ts) fun ps' => ∀ p ∈ ps', P p.type := by
  induction ps generalizing ts with
  | nil => exact .pure fun _ hp => absurd hp List.not_mem_nil
  | cons p ps ih =>
    cases ts with
    | nil => exact .pure fun _ hp => absurd hp List.not_mem_nil
    | cons t ts =>
      rw [List.forall_mem_cons] at hps hts
      refine .bind (upholds_variableId _) fun id _ => .bind (upholds_declareLocal _ _ hts.1) fun new _ => ?_
      simp only [reject_bind]
      split
      · exact .reject
      · exact .bind (ih hps.2 hts.2) fun ps' hps' => .pure (List.forall_mem_cons.mpr ⟨hps.1, hps'⟩)

section

variable {e : Expr}

theorem upholds_checkOptionType (span : Span) (name : Text) {t : Ty} (ht : t.Proper) :
    Upholds Γ (checkOptionType span name t) fun _ => t.scalar?.isSome := by
  unfold checkOptionType
  split
  · exact .pure rfl
  · exact .pure rfl
  · exact ht.elim
  · exact .reject

/-- A value that is of the same type as a scalar or a vector is of that type. -/
theorem hasType_of_same {t u : Ty} {v : Value} (hv : v.HasType u) (hu : u.Proper) (ht : t.scalar?.isSome)
    (hsame : v.type.same t) : v.HasType t := by
  have htype : v.type = t := Ty.eq_of_same_right ht hsame
  have heq : v.type = u := hv.type_eq hu
  rwa [← htype, heq]

theorem upholds_optionDefault {d : OptionDecl} (h : d.default.Regular) {t : Ty} (ht : t.Proper)
    (hscalar : t.scalar?.isSome) :
    Upholds Γ (optionDefault d t) fun r => (r = none → d.default.isAbsent) ∧ ∀ x ∈ r, x.2.HasType t := by
  unfold optionDefault
  split
  · rename_i habsent
    exact .pure ⟨fun _ => habsent, nofun⟩
  refine .bind (upholds_expression _ h) fun e he => .bind (upholds_evaluateWithDefaults he) fun r hr => ?_
  split
  · exact .reject
  rename_i v
  simp only [reject_bind]
  split
  · exact .reject
  · rename_i hsame
    rw [ht.isKnown, Bool.true_and, Bool.not_eq_true', Bool.not_eq_false] at hsame
    refine .pure ⟨nofun, fun x hx => ?_⟩
    rw [← Option.some.inj hx]
    exact hasType_of_same (hr v rfl) he.proper hscalar hsame

/-- What is known of a constant is of its type. -/
theorem upholds_constantInfo (name : Text) (declared : Ty) (he : e.Typed Γ) :
    Upholds Γ (constantInfo name declared e) fun r => r.1.Typed ∧ r.2.Typed Γ := by
  unfold constantInfo
  rw [he.known]
  simp only [reject_bind]
  split
  · rename_i hfalse
    cases hfalse
  split
  · exact .reject
  refine .bind (upholds_evaluateWithDefaults he) fun r hr => ?_
  split
  · exact .reject
  rename_i fallback
  refine .bind (upholds_evaluate he) fun known hknown => ?_
  have hfallback : ∀ v ∈ some fallback, v.HasType e.type := fun v hv => Option.some.inj hv ▸ hr fallback rfl
  cases known with
  | error err => exact .pure ⟨⟨he.proper, nofun, hfallback⟩, he⟩
  | ok value =>
    have hvalue : value.HasType e.type := hknown value rfl
    exact .pure ⟨⟨he.proper, fun v hv => Option.some.inj hv ▸ hvalue, hfallback⟩, .ofValue _ he.proper hvalue⟩

/-- A condition that is checked is a boolean. -/
theorem upholds_constantCondition (he : e.Typed Γ) : Upholds Γ (constantCondition e) fun _ => e.Decides Γ := by
  unfold constantCondition
  rw [he.known]
  simp only [reject_bind]
  split
  · rename_i hfalse
    cases hfalse
  split
  · exact .reject
  rename_i hbool
  have hdecides : e.Decides Γ := ⟨by simpa using hbool, he.sound⟩
  refine .reading (.evaluateWithDefaults _) fun r => ?_
  split
  · exact .reject
  refine .reading (.evaluate _) fun known => ?_
  split <;> exact .pure hdecides

theorem upholds_constantConditions {arms : List (Expr × Stmt)} (h : ∀ a ∈ arms, a.1.Regular) :
    Upholds Γ (constantConditions arms) fun cs => cs.length = arms.length ∧ ∀ c ∈ cs, c.1.Decides Γ := by
  induction arms with
  | nil => exact .pure ⟨rfl, fun _ hc => absurd hc List.not_mem_nil⟩
  | cons arm arms ih =>
    rw [List.forall_mem_cons] at h
    refine .bind (upholds_expression _ h.1) fun c hc => .bind (upholds_constantCondition hc) fun known hdecides => ?_
    refine .bind (ih h.2) fun cs ⟨hlength, hcs⟩ => .pure ⟨?_, List.forall_mem_cons.mpr ⟨hdecides, hcs⟩⟩
    rw [List.length_cons, List.length_cons, hlength]

theorem upholds_checkBound {p : Primitive} (he : e.isAbsent = false → e.Typed Γ) :
    Upholds Γ (checkBound (.prim p) e) fun _ => e.isAbsent = false → e.type = .prim p := by
  unfold checkBound
  split
  · exact .reject
  · rename_i hsame
    refine .pure fun hpresent => Ty.eq_of_same_right rfl ?_
    simpa [Expr.isPresent, hpresent, (he hpresent).known] using hsame

theorem upholds_rangeHead {h : RangeHead} (hstart : h.start.Regular) (hstop : h.stop.Regular) (hstep : h.step.Regular) :
    Upholds Γ (rangeHead h) fun r => ∃ p, r.2 = .prim p ∧ Stmt.Counted Γ r.1 p := by
  unfold rangeHead
  simp only [ite_bind, reject_bind]
  refine .bind (upholds_expression _ hstart) fun start hs => .bind (upholds_expression _ hstop) fun stop ht => ?_
  refine .bind (upholds_expressionOr hstep) fun step hu => .bind (upholds_choice _ _) fun unroll hunroll => ?_
  have hstepped : step.isAbsent = false → step.Typed Γ := by
    intro hpresent
    rcases hu with ⟨habsent, rfl⟩ | ⟨-, hu⟩
    · rw [habsent] at hpresent
      cases hpresent
    · exact hu
  rw [hs.known, if_pos rfl]
  split
  · exact .reject
  rename_i hinteger
  obtain ⟨p, hp, htype⟩ : ∃ p, (p = .i32 ∨ p = .u32) ∧ start.type = .prim p := by
    rw [Bool.not_eq_true', Bool.not_eq_false, Bool.or_eq_true] at hinteger
    rcases hinteger with hi | hu
    · exact ⟨.i32, .inl rfl, Ty.eq_of_isPrim hi⟩
    · exact ⟨.u32, .inr rfl, Ty.eq_of_isPrim hu⟩
  rw [htype]
  refine .bind (upholds_checkBound fun _ => ht) fun _ hstopType => .bind (upholds_checkBound hstepped) fun _ hstepType => ?_
  have hstepSound : step.Sound Γ := by
    cases habsent : step.isAbsent with
    | true => exact .of_isAbsent habsent
    | false => exact (hstepped habsent).sound
  exact .pure ⟨p, rfl, hp, hs, ht.sound, hstepSound, hstopType ht.present, hstepType, .of_isAbsent hunroll⟩

theorem upholds_eachHead {h : EachHead} (hh : h.array.Regular) :
    Upholds Γ (eachHead h) fun r => r.1.array.Typed Γ ∧ (∃ n, r.1.array.type = .array r.2 n) ∧ r.1.unroll.expr.Sound Γ := by
  refine .bind (upholds_expression _ hh) fun array harray => .bind (upholds_choice _ _) fun unroll hunroll => ?_
  split
  · rename_i hunknown
    have hproper := harray.proper
    rw [hunknown] at hproper
    exact hproper.elim
  · rename_i elem n htype
    exact .pure ⟨harray, ⟨n, htype⟩, .of_isAbsent hunroll⟩
  · exact .reject

theorem upholds_returned (span : Span) (f : Function) (h : e.Regular) : Upholds Γ (returned span f e) (Expr.Sound Γ) := by
  have orAbsent {e' : Expr} (he' : (e.isAbsent ∧ e' = e) ∨ e.isAbsent = false ∧ e'.Typed Γ) : e'.Sound Γ := by
    rcases he' with ⟨habsent, rfl⟩ | ⟨-, he'⟩
    · exact .of_isAbsent habsent
    · exact he'.sound
  unfold returned
  simp only [ite_bind, reject_bind]
  split
  · exact .bind (upholds_expressionOr h) fun e' he' => .pure (orAbsent he')
  split
  · rename_i habsent
    split
    · exact .reject
    · exact .pure (.of_isAbsent habsent)
  refine .bind (upholds_expression e h) fun e' he' => ?_
  split
  · exact .reject
  split
  · exact .reject
  · exact .pure he'.sound

section

variable {Δ : Int → Ty → Prop}

/-- What a lowering makes. It takes names and numbers only. -/
theorem upholds_supplied {act : StateM Supply Stmt} {P : Stmt → Prop} (h : ∀ s, P (act.run s).1) :
    Upholds Γ (supplied act) P := by
  refine ⟨fun {site σ out σ'} hσ _ hrun => ?_⟩
  obtain ⟨rfl, rfl⟩ := supplied_ok hrun
  exact ⟨⟨hσ.session.of_same rfl rfl rfl rfl rfl rfl rfl, hσ.scopes, hσ.exports, hσ.wildcard, hσ.pending⟩, ⟨rfl, rfl, rfl⟩, h _⟩

/-- A loop declares the constants that its body declares. -/
theorem upholds_rangeLoop (span : Span) {h : RangeHead} {p : Primitive} {body : Stmt} (hh : Stmt.Counted Δ h p)
    (hbody : body.Sound Δ) :
    Upholds Γ (rangeLoop span h (.prim p) body) fun x => x.Sound Δ ∧ x.constants = body.constants := by
  have hconstants := Stmt.constant_fromDeclarations
  refine .reading .read fun site => ?_
  split
  · exact upholds_supplied fun s =>
      ⟨Stmt.sound_reduceRange span hh hbody s, Stmt.gather_reduceRange hconstants span h p body s⟩
  · refine .pure ⟨(Stmt.sound_forRange _ _ _).mpr ⟨⟨hh.unroll, hh.start.sound, hh.stop, hh.step⟩, hbody⟩, ?_⟩
    exact Stmt.gather_forRange hconstants span h body

theorem upholds_eachLoop (span : Span) {h : EachHead} {elem : Ty} {n : UInt32} {body : Stmt} (harray : h.array.Typed Δ)
    (htype : h.array.type = .array elem n) (hunroll : h.unroll.expr.Sound Δ) (hbody : body.Sound Δ) :
    Upholds Γ (eachLoop span h body) fun x => x.Sound Δ ∧ x.constants = body.constants := by
  have hconstants := Stmt.constant_fromDeclarations
  unfold eachLoop
  rw [htype]
  refine .reading .read fun site => ?_
  split
  · exact upholds_supplied fun s =>
      ⟨Stmt.sound_reduceEach span harray htype hunroll hbody s, Stmt.gather_reduceEach hconstants span h elem n body s⟩
  · refine .pure ⟨(Stmt.sound_forEach _ _ _).mpr ⟨⟨hunroll, harray.sound⟩, hbody⟩, ?_⟩
    exact Stmt.gather_forEach hconstants span h body

end

end

theorem Upholds.forM {as : List α} {f : α → Check PUnit} (h : ∀ a ∈ as, Upholds Γ (f a) fun _ => True) :
    Upholds Γ (as.forM f) fun _ => True := by
  induction as with
  | nil => exact .pure trivial
  | cons a as ih =>
    rw [List.forall_mem_cons] at h
    exact .bind h.1 fun _ _ => ih h.2

theorem upholds_declareItems (moduleName : Text) {symbols : List (Text × Binding)} (h : ∀ b ∈ symbols, b.2.Known)
    (items : List ImportItem) : Upholds Γ (declareItems moduleName symbols items) fun _ => True := by
  induction items with
  | nil => exact .pure trivial
  | cons item items ih =>
    unfold declareItems
    simp only [reject_bind]
    split
    · exact .reject
    · refine .bind (.forM fun s hs => upholds_declare _ _ (h s ?_)) fun _ _ => ih
      exact List.mem_of_mem_filter hs

end Shading.Check
