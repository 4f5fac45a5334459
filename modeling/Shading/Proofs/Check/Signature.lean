import Shading.Proofs.Check.Declaration

/-! Checked structures, resources and heads of functions. -/
namespace Shading.Check

open Stmt (Everywhere)

variable {P : Place → Prop}

/-- A member of a structure with its type: nothing is left of its attributes and of its condition. -/
structure Settled (p : Place) (m : StructMember) (t : Ty) : Prop where
  known : Known p.context t
  type : ∃ span, m.type = .ofType span t
  builtin : m.builtin.expr = .absent
  location : m.location.expr = .absent
  cond : m.cond = .absent

theorem delivers_memberExists (m : StructMember) (hm : m.cond.Written) :
    Delivers P (memberExists m) fun _ _ => True := by
  unfold memberExists
  split
  · exact .pure fun _ _ => trivial
  · refine .bind (delivers_expression m.cond hm) fun cond => ?_
    refine .bind (.of_reads_only (.evaluateWithDefaults cond)) fun r => ?_
    split
    · exact .reject
    · exact .pure fun _ _ => trivial
    · exact .reject

theorem delivers_memberAttributes (m : StructMember) (t : Ty) (hlocation : m.location.expr.Written) :
    Delivers P (memberAttributes m t) fun _ r =>
      r.type = m.type ∧ r.cond = m.cond ∧ r.builtin.expr = .absent ∧ r.location.expr = .absent := by
  unfold memberAttributes
  refine .bind (delivers_choice _ _ _) fun builtin => ?_
  have tail {P' : Place → Prop} (hP' : ∀ p, P' p → builtin.expr = .absent) : Delivers P' (do
      let location ← unsignedAttr m.location "location"
      if builtin.value.isSome && location.value.isSome then reject m.span (.builtinAndLocation m.name)
      return { m with builtin, location }) fun _ r =>
        r.type = m.type ∧ r.cond = m.cond ∧ r.builtin.expr = .absent ∧ r.location.expr = .absent := by
    refine .bind (delivers_unsignedAttr m.location _ hlocation) fun location => ?_
    simp only [reject_bind]
    split
    · exact .reject
    · exact .pure fun p hp => ⟨rfl, rfl, hP' p hp.1, hp.2⟩
  dsimp only
  split
  · simp only [reject_bind]
    split
    · exact .reject
    · exact tail fun p hp => hp.2
  · exact tail fun p hp => hp.2

theorem delivers_structMembers (struct : Text) (seen : List Text) (ms : List StructMember)
    (hms : ∀ e ∈ ms.flatMap Stmt.memberExprs, e.Written) :
    Delivers P (structMembers struct seen ms) fun p r => ∀ x ∈ r, Settled p x.1 x.2 := by
  induction ms generalizing seen P with
  | nil => exact .pure fun _ _ x hx => (by cases hx)
  | cons m ms ih =>
    rw [List.flatMap_cons] at hms
    have hm : ∀ e ∈ Stmt.memberExprs m, e.Written := fun e he => hms e (List.mem_append_left _ he)
    have hms' : ∀ e ∈ ms.flatMap Stmt.memberExprs, e.Written := fun e he => hms e (List.mem_append_right _ he)
    unfold structMembers
    refine .bind (delivers_memberExists m (hm _ (by simp [Stmt.memberExprs]))) fun exists? => ?_
    split
    · exact ih seen hms'
    simp only [reject_bind]
    split
    · exact .reject
    refine .bind (delivers_typeNote m.type (hm _ (by simp [Stmt.memberExprs]))) fun r => ?_
    refine .bind (delivers_memberAttributes _ r.1 (hm _ (by simp [Stmt.memberExprs]))) fun m' => ?_
    refine .bind (ih (m'.name :: seen) hms') fun rest => ?_
    refine .pure fun p hp => ?_
    obtain ⟨⟨⟨_, hknown, htype⟩, htype', hcond, hbuiltin, hlocation⟩, hrest⟩ := hp
    rw [List.forall_mem_cons]
    exact ⟨⟨hknown, ⟨_, htype'.trans htype⟩, hbuiltin, hlocation, hcond⟩, hrest⟩

/-- The members as a checked structure has them. -/
theorem record_of_settled {p : Place} {members : List (StructMember × Ty)} (h : ∀ x ∈ members, Settled p x.1 x.2) :
    (members.map (·.1)).map (fun m => (m.name, m.type.type)) = members.map fun x => (x.1.name, x.2) := by
  rw [List.map_map, List.map_inj_left]
  intro x hx
  obtain ⟨span, htype⟩ := (h x hx).type
  simp only [Function.comp, htype]
  rfl

theorem makes_declareStruct {P : Claim} (span : Span) (d : StructDecl) (hd : (Stmt.struct span d).Written) :
    Makes P (declareStruct span d) (fun d => [(.struct, d.id)]) (fun _ d => [.struct d.record])
      fun env p d => Everywhere env Node.Valid p (.struct span d) := by
  have hid : d.id = 0 := (hd.self rfl).1 (.struct d.record) List.mem_cons_self
  unfold declareStruct
  rw [hid]
  refine .bind (B := fun _ => True) (delivers_requireModuleScope span _) (fun _ _ _ => trivial) fun _ => ?_
  refine .bind (B := fun _ => True) (delivers_choice d.layout _ _) (fun _ _ _ => trivial) fun layout => ?_
  refine .bind (B := fun _ => True) (delivers_boolAttr d.exported (hd.expr (by simp [Stmt.ownExprs])))
    (fun _ _ _ => trivial) fun exported => ?_
  refine .bind (B := fun _ => True) (delivers_structMembers d.name [] d.members fun e he => hd.expr ?_)
    (fun _ _ _ => trivial) fun members => ?_
  · exact List.mem_cons_of_mem _ (List.mem_cons_of_mem _ he)
  refine ⟨fun {site σ a σ'} h => ⟨[], ?_, fun _ => rfl⟩⟩
  obtain ⟨id, σ₁, hrun, h⟩ := bind_ok.mp h
  obtain ⟨rfl, hσ₁⟩ := structId_ok hrun
  obtain ⟨w, σ₂, hadd, h⟩ := bind_ok.mp h
  have hσ₂ := modifySession_ok.mp hadd
  obtain ⟨u, σ₃, hpublish, h⟩ := bind_ok.mp h
  obtain ⟨d₁, rfl, hbinds⟩ := publish_ok hpublish
  obtain ⟨v, σ₄, hdeclare, h⟩ := bind_ok.mp h
  obtain ⟨d₂, rfl, hbinds'⟩ := declare_ok hdeclare
  obtain ⟨rfl, rfl⟩ := pure_ok.mp h
  subst hσ₁ hσ₂
  refine Step.declared (.struct _ _) (hbinds.trans hbinds') (fun env p _ hp => ?_) fun env p hp => ?_
  · obtain ⟨-, hmembers⟩ := hp
    have hrecord : StructDecl.record { d with layout, members := members.map (·.1), exported, id := σ.session.nextStruct } =
        ⟨σ.session.nextStruct, d.name, members.map fun x => (x.1.name, x.2)⟩ := by
      rw [StructDecl.record, record_of_settled hmembers]
    rw [hrecord]
    refine ⟨⟨_, lookup_new _, List.mem_cons_self, rfl⟩, ?_, fun f _ g hg => (by cases List.mem_singleton.mp hg)⟩
    intro d hd
    rw [List.mem_singleton.mp hd]
    refine ⟨(Ty.properMembers_iff _).mpr fun m hm => ?_, _, lookup_new _⟩
    obtain ⟨x, hx, rfl⟩ := List.mem_map.mp hm
    exact (hmembers x hx).known.1
  · obtain ⟨⟨⟨_, hlayout⟩, hexported⟩, hmembers⟩ := hp
    refine ⟨fun m hm => ?_, fun e he => ?_⟩
    · obtain ⟨x, hx, rfl⟩ := List.mem_map.mp hm
      obtain ⟨s, hs⟩ := (hmembers x hx).type
      exact ⟨⟨_, _, hs⟩, (hmembers x hx).cond⟩
    · simp only [Stmt.ownExprs, List.mem_cons] at he
      rcases he with rfl | rfl | he
      · exact valid_of_optional (.inl hexported)
      · exact valid_of_optional (.inl hlayout)
      · obtain ⟨m, hm, he⟩ := List.mem_flatMap.mp he
        obtain ⟨x, hx, rfl⟩ := List.mem_map.mp hm
        have hsettled := hmembers x hx
        obtain ⟨s, hs⟩ := hsettled.type
        simp only [Stmt.memberExprs, List.mem_cons, List.not_mem_nil, or_false] at he
        rcases he with rfl | rfl | rfl | rfl
        · rw [hs]
          exact valid_of_optional (.inr (Expr.checked_ofType _ hsettled.known))
        · exact valid_of_optional (.inl hsettled.builtin)
        · exact valid_of_optional (.inl hsettled.location)
        · exact valid_of_optional (.inl hsettled.cond)

/-- The bindings that are taken concern nothing else. -/
theorem Step.rebound {P Q : Claim} {site : Site} {σ σ' : State} {qs : List Stmt} {ks : List Key}
    {D : Surroundings → List Referent} {bindings : List ((UInt32 × UInt32) × Text)}
    (h : Step P site { σ with draft := { σ.draft with bindings } } σ' qs ks D Q) : Step P site σ σ' qs ks D Q := by
  obtain ⟨fs, hadvances, hpost⟩ := h.out
  refine ⟨fs, ⟨hadvances.pending, hadvances.outer, hadvances.exports, hadvances.finished, hadvances.numbered,
    hadvances.inProgress, hadvances.started, hadvances.previous, hadvances.missing⟩, ?_⟩
  intro env p hcovers hroom hstands hp
  exact hpost env p hcovers hroom (hstands.agree rfl rfl rfl rfl) hp

/-- A binding that is taken may be taken once more under a condition only. -/
theorem takeBinding_ok {site : Site} {σ σ' : State} {v : External} {set binding : UInt32} {u : Unit}
    (h : takeBinding v set binding site σ = .ok (u, σ')) :
    ((σ.draft.bindings.lookup (set, binding)).isSome → site.conditional) ∧
      σ' = { σ with draft := { σ.draft with bindings := ((set, binding), v.name) :: σ.draft.bindings } } := by
  obtain ⟨d, σ₁, hd, h⟩ := bind_ok.mp h
  obtain ⟨rfl, rfl⟩ := getDraft_ok.mp hd
  cases hother : σ₁.draft.bindings.lookup (set, binding) with
  | none =>
    simp only [hother] at h
    exact ⟨nofun, modifyDraft_ok.mp h⟩
  | some other =>
    simp only [hother, reject_bind] at h
    obtain ⟨s, σ₂, hs, hrest⟩ := bind_ok.mp h
    obtain ⟨rfl, rfl⟩ := read_ok.mp hs
    split at hrest
    · exact (reject_ok.mp hrest).elim
    · next hconditional => exact ⟨fun _ => by simpa using hconditional, modifyDraft_ok.mp hrest⟩

/-- A resource of a known type, with no structure behind arrays. Nothing is left of its attributes. -/
structure Placed (v : External) : Prop where
  type : ∃ span t, t.Proper ∧ (∀ r, t.innermost ≠ .struct r) ∧ v.type = .ofType span t
  set : v.set.expr = .absent
  binding : v.binding.expr = .absent

theorem delivers_checkResourceType {P : Place → Prop} (v : External) (t : Ty) :
    Delivers P (checkResourceType v t) fun _ _ => ∀ r, t.innermost ≠ .struct r := by
  unfold checkResourceType
  split
  · exact .pure fun _ _ r hr => (by cases hr)
  · exact .pure fun _ _ r hr => (by cases hr)
  · exact .pure fun _ _ r hr => (by cases hr)
  · exact .pure fun _ _ r hr => (by cases hr)
  · exact .reject

theorem makes_declareResource {P : Claim} (set : Attr UInt32) (v : External) (hid : v.id = 0)
    (hv : ∀ e ∈ Stmt.externalExprs v, e.Written) :
    Makes P (declareResource set v) (fun v => [v.declaration.key]) (fun _ v => [v.declaration]) fun _ _ v => Placed v := by
  unfold declareResource
  rw [hid]
  refine .bind (B := fun _ => True) (delivers_typeNote v.type (hv _ (by simp [Stmt.externalExprs])))
    (fun _ _ _ => trivial) fun r => ?_
  refine .bind (B := fun _ => True) (delivers_checkResourceType v r.1) (fun _ _ _ => trivial) fun _ => ?_
  refine .bind (B := fun _ => True) (delivers_unsignedAttr v.set _ (hv _ (by simp [Stmt.externalExprs])))
    (fun _ _ _ => trivial) fun ownSet => ?_
  refine .bind (B := fun _ => True) (delivers_unsignedAttr v.binding _ (hv _ (by simp [Stmt.externalExprs])))
    (fun _ _ _ => trivial) fun binding => ?_
  split
  · exact .reject
  · rename_i b _
    refine ⟨fun {site σ a σ'} h => ?_⟩
    obtain ⟨u, σ₁, htake, hrest⟩ := bind_ok.mp h
    obtain ⟨-, rfl⟩ := takeBinding_ok htake
    have htail : Makes (fun _ _ => r.1.Proper ∧ (∀ x, r.1.innermost ≠ .struct x) ∧ r.2 = .ofType v.type.span r.1 ∧
        binding.expr = .absent) (do
        let id ← variableId 0
        addVariable id { name := v.name, type := r.1, external := true }
        declare v.name v.span (.external id)
        return { v with type := r.2, set := .known (ownSet.value.getD (set.value.getD 0)), binding, id })
        (fun v => [v.declaration.key]) (fun _ v => [v.declaration]) fun _ _ v => Placed v := by
      refine makes_variable (fun _ _ _ h => h) (fun _ => rfl) (fun env p id h => ?_) fun env p id h => ?_
      · obtain ⟨hproper, _, htype, _⟩ := h
        refine ⟨?_, hproper⟩
        simp only [External.declaration, htype]
        rfl
      · obtain ⟨hproper, hstruct, htype, hbinding⟩ := h
        exact ⟨⟨_, _, hproper, hstruct, htype⟩, rfl, hbinding⟩
    obtain ⟨qs, hstep, hnone⟩ := htail.run hrest
    refine ⟨qs, hstep.rebound.pre fun env p h => ?_, hnone⟩
    obtain ⟨⟨⟨⟨_, hr⟩, hstruct⟩, _⟩, hbinding⟩ := h
    exact ⟨hr.1.1, hstruct, hr.2, hbinding⟩

/-- One resource after the other. Outside functions nothing is put before them. -/
theorem declareResources_ok {P : Claim} {site : Site} {σ σ' : State} (set : Attr UInt32) {vs ws : List External}
    (hnone : site.function = none) (hvs : ∀ v ∈ vs, v.id = 0 ∧ ∀ e ∈ Stmt.externalExprs v, e.Written)
    (h : declareResources set vs site σ = .ok (ws, σ')) :
    Step P site σ σ' [] (ws.map fun w => w.declaration.key) (fun _ => (ws.map External.declaration).reverse)
      fun _ _ => ∀ w ∈ ws, Placed w := by
  induction vs generalizing σ ws P with
  | nil =>
    obtain ⟨rfl, rfl⟩ := pure_ok.mp h
    exact .refl fun _ _ _ w hw => (by cases hw)
  | cons v vs ih =>
    rw [List.forall_mem_cons] at hvs
    obtain ⟨w, σ₁, hv, h⟩ := bind_ok.mp h
    obtain ⟨rest, σ₂, hrest, h⟩ := bind_ok.mp h
    obtain ⟨rfl, rfl⟩ := pure_ok.mp h
    obtain ⟨qs, hstep, hqs⟩ := (makes_declareResource (P := P) set v hvs.1.1 hvs.1.2).run hv
    rw [hqs hnone] at hstep
    have hboth := hstep.seq (ih hvs.2 hrest)
    rw [List.map_cons, List.map_cons]
    simp only [List.reverse_cons]
    exact hboth.post fun _ _ h => List.forall_mem_cons.mpr h

theorem makes_declareExternals {P : Claim} (span : Span) (set : Attr UInt32) (vars : List External)
    (hvars : (Stmt.external span set vars).Written) :
    Makes P (declareExternals span set vars) (fun r => r.2.map fun v => v.declaration.key)
      (fun _ r => r.2.map External.declaration) fun env p r => Everywhere env Node.Valid p (.external span r.1 r.2) := by
  refine ⟨fun {site σ r σ'} h => ?_⟩
  obtain ⟨u, σ₁, hscope, hrest⟩ := bind_ok.mp h
  obtain ⟨hnone, rfl⟩ := requireModuleScope_ok hscope
  obtain ⟨set', σ₂, hset, hrest⟩ := bind_ok.mp hrest
  obtain ⟨ws, σ₃, hws, hpure⟩ := bind_ok.mp hrest
  obtain ⟨rfl, rfl⟩ := pure_ok.mp hpure
  have hset' := delivers_unsignedAttr (P := fun _ => True) set "set" (hvars.expr (by simp [Stmt.ownExprs]))
  obtain ⟨qs, hstep, hqs⟩ := Step.of_delivers (P := P) hset' hset fun _ _ _ => trivial
  rw [hqs hnone] at hstep
  have hvs : ∀ v ∈ vars, v.id = 0 ∧ ∀ e ∈ Stmt.externalExprs v, e.Written := by
    refine fun v hv => ⟨(hvars.self rfl).1 _ (List.mem_map.mpr ⟨v, hv, rfl⟩), fun e he => hvars.expr ?_⟩
    exact List.mem_cons_of_mem _ (List.mem_flatMap.mpr ⟨v, hv, he⟩)
  have hboth := hstep.trans (declareResources_ok set' hnone hvs hws)
  refine ⟨[], (hboth.reorder fun _ _ _ => ?_).post fun env p ⟨habsent, hplaced⟩ => ?_, fun _ => rfl⟩
  · exact ⟨List.reverse_subset.mpr (List.Subset.refl _), List.subset_reverse.mpr (List.Subset.refl _)⟩
  refine ⟨fun v hv => ?_, fun e he => ?_⟩
  · obtain ⟨s, t, -, -, htype⟩ := (hplaced v hv).type
    exact ⟨_, _, htype⟩
  · simp only [Stmt.ownExprs, List.mem_cons] at he
    rcases he with rfl | he
    · exact valid_of_optional (.inl habsent)
    · obtain ⟨v, hv, he⟩ := List.mem_flatMap.mp he
      obtain ⟨s, t, hproper, hstruct, htype⟩ := (hplaced v hv).type
      simp only [Stmt.externalExprs, List.mem_cons, List.not_mem_nil, or_false] at he
      rcases he with rfl | rfl | rfl
      · rw [htype]
        exact valid_of_optional (.inr (Expr.checked_ofType _ ⟨hproper, fun r hr => (hstruct r hr).elim⟩))
      · exact valid_of_optional (.inl (hplaced v hv).set)
      · exact valid_of_optional (.inl (hplaced v hv).binding)

theorem declareLocal_ok {site : Site} {σ σ' : State} {name : Text} {id : Int} {t : Ty} {new : Bool}
    (h : declareLocal name id t site σ = .ok (new, σ')) :
    ∃ d, σ' = ⟨{ σ.session with vars := (id, { name, type := t }) :: σ.session.vars }, d⟩ ∧
      Binds site σ.draft d (· = .variable id) := by
  obtain ⟨u, σ₁, hadd, h⟩ := bind_ok.mp h
  have hσ₁ := modifySession_ok.mp hadd
  subst hσ₁
  obtain ⟨d, σ₂, hd, hrest⟩ := bind_ok.mp h
  obtain ⟨rfl, rfl⟩ := getDraft_ok.mp hd
  cases hscopes : σ.draft.scopes.declare? name (.variable id) with
  | none =>
    simp only [hscopes] at hrest
    obtain ⟨-, rfl⟩ := pure_ok.mp hrest
    exact ⟨_, rfl, .refl _ _ _⟩
  | some scopes =>
    simp only [hscopes] at hrest
    obtain ⟨v, σ₃, hmodify, hpure⟩ := bind_ok.mp hrest
    obtain ⟨-, rfl⟩ := pure_ok.mp hpure
    exact ⟨_, modifyDraft_ok.mp hmodify, .of_declare hscopes⟩

/-- A variable of the innermost scope gets a number. -/
theorem Step.local {P : Claim} {site : Site} {σ σ₁ σ₂ : State} {name : Text} {id : Int} {t : Ty} {new : Bool}
    (hid : variableId 0 site σ = .ok (id, σ₁)) (h : declareLocal name id t site σ₁ = .ok (new, σ₂))
    (hP : ∀ env p, P env p → t.Proper) :
    Step P site σ σ₂ [] [(.variable, id)] (fun _ => [.variable id t]) P := by
  obtain ⟨rfl, hσ₁⟩ := variableId_ok hid
  subst hσ₁
  obtain ⟨d, rfl, hbinds⟩ := declareLocal_ok h
  refine Step.declared (.variable _ _) hbinds (fun env p _ hp => ?_) fun _ _ hp => hp
  refine ⟨⟨_, lookup_new _, List.mem_cons_self⟩, fun d hd => ?_, fun f _ g hg => (by cases List.mem_singleton.mp hg)⟩
  rw [List.mem_singleton.mp hd]
  exact ⟨hP env p hp, trivial⟩

/-- The parameters of a function become variables of its body. -/
theorem declareParams_ok {P : Claim} {site : Site} {σ σ' : State} {ps qs : List FnParam} {ts : List Ty}
    (hid : ∀ x ∈ ps, x.id = 0)
    (hP : ∀ env p, P env p → ts = ps.map (·.type.type) ∧ ∀ x ∈ ps, x.type.type.Proper)
    (h : declareParams ps ts site σ = .ok (qs, σ')) :
    Step P site σ σ' [] (qs.map fun x => x.declaration.key) (fun _ => (qs.map FnParam.declaration).reverse)
      fun env p => P env p ∧ qs.map (·.type) = ps.map (·.type) := by
  induction ps generalizing ts σ qs P with
  | nil =>
    obtain ⟨rfl, rfl⟩ := pure_ok.mp h
    exact .refl fun _ _ hp => ⟨hp, rfl⟩
  | cons x ps ih =>
    rw [List.forall_mem_cons] at hid
    cases ts with
    | nil =>
      obtain ⟨rfl, rfl⟩ := pure_ok.mp h
      refine .refl fun env p hp => ?_
      cases (hP env p hp).1
    | cons t ts =>
      rw [declareParams, hid.1] at h
      obtain ⟨id, σ₁, hrun, h⟩ := bind_ok.mp h
      obtain ⟨new, σ₂, hlocal, hrest⟩ := bind_ok.mp h
      simp only [reject_bind] at hrest
      split at hrest
      · exact (reject_ok.mp hrest).elim
      obtain ⟨rest, σ₃, hparams, hpure⟩ := bind_ok.mp hrest
      obtain ⟨rfl, rfl⟩ := pure_ok.mp hpure
      have htypes : ∀ env p, P env p → t = x.type.type ∧ ts = ps.map (·.type.type) :=
        fun env p hp => List.cons_eq_cons.mp (hP env p hp).1
      have hstep : Step P site σ σ₂ [] [(.variable, id)] (fun _ => [.variable id t]) P := by
        refine .local hrun hlocal fun env p hp => ?_
        rw [(htypes env p hp).1]
        exact (hP env p hp).2 x List.mem_cons_self
      have hdeclared : Step P site σ σ₂ [] [(.variable, id)] (fun _ => [FnParam.declaration { x with id }]) P := by
        refine hstep.reorder fun env p hp => ?_
        rw [(htypes env p hp).1]
        exact ⟨List.Subset.refl _, List.Subset.refl _⟩
      have hsteps := ih (P := fun env p => P env p ∧ P env p) hid.2 (fun env p hp =>
        ⟨(htypes env p hp.1).2, fun y hy => (hP env p hp.1).2 y (List.mem_cons_of_mem _ hy)⟩) hparams
      rw [List.map_cons, List.map_cons]
      simp only [List.reverse_cons]
      refine (hdeclared.seq hsteps).post fun env p hp => ⟨hp.1, ?_⟩
      rw [List.map_cons, hp.2.2, List.map_cons]

/-- Is it an annotation with a known type? -/
def Annotates (p : Place) (e : Expr) : Prop := ∃ span t, Known p.context t ∧ e = .ofType span t

theorem Annotates.checked {p : Place} {e : Expr} (h : Annotates p e) : e.Checked p ∧ e.IsAnnotation := by
  obtain ⟨span, t, hknown, rfl⟩ := h
  exact ⟨Expr.checked_ofType span hknown, _, _, rfl⟩

theorem delivers_annotateParams {P : Place → Prop} (ps : List FnParam)
    (hps : ∀ x ∈ ps, x.type.Written) :
    Delivers P (annotateParams ps) fun p r => ∀ x ∈ r, Annotates p x.1.type ∧ x.1.type.type = x.2 := by
  induction ps generalizing P with
  | nil => exact .pure fun _ _ x hx => (by cases hx)
  | cons x ps ih =>
    rw [List.forall_mem_cons] at hps
    refine .bind (delivers_typeNote x.type hps.1) fun r => ?_
    refine .bind (ih hps.2) fun rest => ?_
    refine .pure fun p ⟨⟨_, hknown, htype⟩, hrest⟩ => ?_
    rw [List.forall_mem_cons]
    refine ⟨⟨⟨_, _, hknown, htype⟩, ?_⟩, hrest⟩
    rw [htype]
    rfl

theorem annotateParams_ok {site : Site} {σ σ' : State} {ps : List FnParam} {r : List (FnParam × Ty)}
    (h : annotateParams ps site σ = .ok (r, σ')) : r.map (·.1.id) = ps.map (·.id) := by
  induction ps generalizing σ σ' r with
  | nil =>
    obtain ⟨rfl, -⟩ := pure_ok.mp h
    rfl
  | cons x ps ih =>
    obtain ⟨a, σ₁, -, h⟩ := bind_ok.mp h
    obtain ⟨rest, σ₂, hrest, hpure⟩ := bind_ok.mp h
    obtain ⟨rfl, -⟩ := pure_ok.mp hpure
    rw [List.map_cons, List.map_cons, ih hrest]

/-- The head of a function whose attributes and types are known. -/
structure Headed (p : Place) (h : FnHead) (f : Function) : Prop where
  stage : h.stage.expr = .absent
  earlyTests : h.earlyTests.expr = .absent
  depthWrite : h.depthWrite.expr = .absent
  workgroup : h.workgroup.expr = .absent
  exported : h.exported.expr = .absent
  params : ∀ x ∈ h.params, Annotates p x.type
  result : h.result = .absent ∨ Annotates p h.result
  signature : f = h.signature

theorem makes_declareFunction {P : Claim} (span : Span) (h : FnHead) (hid : h.id = 0)
    (hh : ∀ e ∈ Stmt.headExprs h, e.Written) :
    Makes P (declareFunction span h) (fun r => [(.function, r.1.id)]) (fun _ r => [.function r.2])
      fun _ p r => p.function = none ∧ Headed p r.1 r.2 := by
  have hps : ∀ x ∈ h.params, x.type.Written :=
    fun x hx => hh _ (List.mem_append_left _ (List.mem_append_right _ (List.mem_map_of_mem hx)))
  unfold declareFunction
  simp only [ite_bind, hid]
  refine .bind (B := fun _ => True) (delivers_requireModuleScope span _) (fun _ _ _ => trivial) fun _ => ?_
  refine .bind (B := fun _ => True) (delivers_functionAttributes span h hh) (fun _ _ _ => trivial) fun head => ?_
  refine .bind (B := fun _ => True) (delivers_annotateParams h.params hps) (fun _ _ _ => trivial) fun params => ?_
  refine .bind (B := fun _ => True) (delivers_typeNoteOr _ h.result (hh _ (by simp [Stmt.headExprs])))
    (fun _ _ _ => trivial) fun r => ?_
  refine ⟨fun {site σ a σ'} hrun => ⟨[], ?_, fun _ => rfl⟩⟩
  obtain ⟨id, σ₁, hid, hrun⟩ := bind_ok.mp hrun
  obtain ⟨rfl, hσ₁⟩ := functionId_ok hid
  obtain ⟨w, σ₂, hadd, hrun⟩ := bind_ok.mp hrun
  have hσ₂ := modifySession_ok.mp hadd
  obtain ⟨u, σ₃, hpublish, hrun⟩ := bind_ok.mp hrun
  obtain ⟨d₁, rfl, hbinds⟩ := publish_ok hpublish
  obtain ⟨v, σ₄, hdeclare, hrun⟩ := bind_ok.mp hrun
  obtain ⟨d₂, rfl, hbinds'⟩ := declare_ok hdeclare
  obtain ⟨rfl, rfl⟩ := pure_ok.mp hrun
  subst hσ₁ hσ₂
  refine Step.declared (.function _ _) (hbinds.trans hbinds') (fun env p hstands hp => ?_) fun env p hp => ?_
  · obtain ⟨⟨⟨⟨_, hnone⟩, _⟩, hparams⟩, hresult⟩ := hp
    refine ⟨⟨_, lookup_new _, List.mem_cons_self, rfl⟩, fun d hd => ?_, fun f hf => ?_⟩
    · rw [List.mem_singleton.mp hd]
      refine ⟨⟨(Ty.properList_iff _).mpr fun t ht => ?_, ?_⟩, lookup_new _⟩
      · obtain ⟨x, hx, rfl⟩ := List.mem_map.mp ht
        obtain ⟨hannotates, htype⟩ := hparams x hx
        rw [← htype]
        exact hannotates.checked.1.proper
      · obtain ⟨-, rfl⟩ | ⟨hknown, -⟩ := hresult
        · trivial
        · exact hknown.1
    · rw [← hstands.sees.function, hnone] at hf
      cases hf
  · obtain ⟨⟨⟨⟨_, hnone⟩, hresolved⟩, hparams⟩, hresult⟩ := hp
    refine ⟨hnone, hresolved.stage, hresolved.earlyTests, hresolved.depthWrite, hresolved.workgroup,
      hresolved.exported, fun x hx => ?_, ?_, ?_⟩
    · obtain ⟨y, hy, rfl⟩ := List.mem_map.mp hx
      exact (hparams y hy).1
    · obtain ⟨-, hr⟩ | ⟨hknown, htype⟩ := hresult
      · exact .inl (by rw [hr])
      · exact .inr ⟨_, _, hknown, htype⟩
    · have htypes : params.map (·.2) = (params.map (·.1)).map (·.type.type) := by
        rw [List.map_map, List.map_inj_left]
        exact fun x hx => (hparams x hx).2.symm
      have hreturn : r.1 = if r.2.isAbsent then .void else r.2.type := by
        obtain ⟨-, rfl⟩ | ⟨hknown, htype⟩ := hresult
        · rfl
        · rw [htype]
          rfl
      simp only [FnHead.signature, htypes, hreturn, hresolved.name]
      rfl

/-- Functions are declared outside functions, and their parameters have no numbers yet. -/
theorem declareFunction_ok {site : Site} {σ σ' : State} {span : Span} {h : FnHead} {r : FnHead × Function}
    (hparams : ∀ x ∈ h.params, x.id = 0) (hrun : declareFunction span h site σ = .ok (r, σ')) :
    site.function = none ∧ r.1.id = r.2.id ∧ ∀ x ∈ r.1.params, x.id = 0 := by
  unfold declareFunction at hrun
  simp only [ite_bind] at hrun
  obtain ⟨u, σ₁, hscope, hrun⟩ := bind_ok.mp hrun
  obtain ⟨head, σ₂, -, hrun⟩ := bind_ok.mp hrun
  obtain ⟨params, σ₃, hannotate, hrun⟩ := bind_ok.mp hrun
  obtain ⟨result, σ₄, -, hrun⟩ := bind_ok.mp hrun
  obtain ⟨id, σ₅, -, hrun⟩ := bind_ok.mp hrun
  obtain ⟨v, σ₆, -, hrun⟩ := bind_ok.mp hrun
  obtain ⟨w, σ₇, -, hrun⟩ := bind_ok.mp hrun
  obtain ⟨y, σ₈, -, hrun⟩ := bind_ok.mp hrun
  obtain ⟨rfl, -⟩ := pure_ok.mp hrun
  refine ⟨(requireModuleScope_ok hscope).1, rfl, fun x hx => ?_⟩
  obtain ⟨a, ha, rfl⟩ := List.mem_map.mp hx
  have hmem : a.1.id ∈ h.params.map (·.id) := by
    rw [← annotateParams_ok hannotate]
    exact List.mem_map.mpr ⟨a, ha, rfl⟩
  obtain ⟨z, hz, heq⟩ := List.mem_map.mp hmem
  rw [← heq]
  exact hparams z hz

end Shading.Check
