import Shading.Proofs.Check.Expression
import Shading.Proofs.Check.Binding
import Shading.Proofs.Module.Comparison

/-! Checked declarations. Each has a number of its own, and its name leads to it. -/
namespace Shading.Check

open Stmt (Everywhere)

/-- A variable gets a number, and its name leads to it. -/
theorem makes_variable {α : Type} {P : Claim} {name : Text} {span : Span} {v : Variable} {bound : Int → Binding}
    {g : Int → α} {ks : α → List Key} {D : Surroundings → α → List Referent} {Q : Surroundings → Place → α → Prop}
    (hbound : ∀ s Γ id, LeadsToVariable s Γ id → Leads s Γ (bound id)) (hks : ∀ id, ks (g id) = [(.variable, id)])
    (hD : ∀ env p id, P env p → D env (g id) = [.variable id v.type] ∧ v.type.Proper)
    (hQ : ∀ env p id, P env p → Q env p (g id)) :
    Makes P (do
      let id ← variableId 0
      addVariable id v
      declare name span (bound id)
      return g id) ks D Q := by
  refine ⟨fun {site σ a σ'} h => ⟨[], ?_, fun _ => rfl⟩⟩
  obtain ⟨id, σ₁, hid, h⟩ := bind_ok.mp h
  obtain ⟨rfl, hσ₁⟩ := variableId_ok hid
  obtain ⟨u, σ₂, hadd, h⟩ := bind_ok.mp h
  have hσ₂ := modifySession_ok.mp hadd
  obtain ⟨w, σ₃, hdeclare, h⟩ := bind_ok.mp h
  obtain ⟨d, hσ₃, hbinds⟩ := declare_ok hdeclare
  obtain ⟨rfl, rfl⟩ := pure_ok.mp h
  subst hσ₁ hσ₂
  rw [hks, hσ₃]
  refine Step.declared (.variable _ _) hbinds (fun env p _ hp => ?_) fun env p hp => hQ env p _ hp
  obtain ⟨hds, hproper⟩ := hD env p σ.session.nextVar hp
  rw [hds]
  refine ⟨hbound _ _ _ ⟨v, lookup_new v, List.mem_cons_self⟩, ?_, ?_⟩
  · intro d hd
    rw [List.mem_singleton.mp hd]
    exact ⟨hproper, trivial⟩
  · intro f _ g hg
    cases List.mem_singleton.mp hg

/-- An annotation that may be left out. -/
theorem delivers_typeNoteOr {P : Place → Prop} (t : Ty) (e : Expr) (he : e.Written) :
    Delivers P (if e.isAbsent then pure (t, e) else annotation e) fun p r =>
      (e = .absent ∧ r = (t, .absent)) ∨ (Known p.context r.1 ∧ r.2 = .ofType e.span r.1) := by
  split
  · rename_i habsent
    rw [absent_of_isAbsent habsent]
    exact .pure fun _ _ => .inl ⟨rfl, rfl⟩
  · exact (delivers_typeNote e he).post fun _ _ h => .inr h

/-- An expression that may be left out. -/
theorem delivers_expressionOr {P : Place → Prop} (e : Expr) (he : e.Written) :
    Delivers P (if e.isAbsent then pure e else expression e) fun p r =>
      (e = .absent ∧ r = .absent) ∨ r.Checked p := by
  split
  · rename_i habsent
    rw [absent_of_isAbsent habsent]
    exact .pure fun _ _ => .inl ⟨rfl, rfl⟩
  · exact (delivers_expression e he).post fun _ _ h => .inr h

theorem valid_of_optional {p : Place} {e : Expr} (h : e = .absent ∨ e.Checked p) : ∀ n ∈ e.nodes, n.Valid p := by
  intro n hn
  rcases h with rfl | h
  · cases hn
  · exact h.of_mem_nodes hn

theorem makes_declareVariable {P : Claim} (span : Span) (d : VarDecl) (hd : (Stmt.letVar span d).Written) :
    Makes P (declareVariable span d) (fun d => [(.variable, d.id)]) (fun _ d => [d.declaration])
      fun env p d => Everywhere env Node.Valid p (.letVar span d) := by
  have hid : d.id = 0 := (hd.self rfl).1 d.declaration List.mem_cons_self
  have hpresent := (hd.self rfl).2 span d rfl
  unfold declareVariable
  simp only [ite_bind, reject_bind, hid]
  refine .bind (B := fun _ => True) (delivers_typeNoteOr _ d.type (hd.expr (by simp [Stmt.ownExprs])))
    (fun _ _ _ => trivial) fun r => ?_
  refine .bind (B := fun _ => True) (delivers_expressionOr d.init (hd.expr (by simp [Stmt.ownExprs])))
    (fun _ _ _ => trivial) fun init => ?_
  have tail {P' : Claim} (hP' : ∀ env p, P' env p →
      ((d.type = .absent ∧ r = (.unknown, .absent)) ∨ (Known p.context r.1 ∧ r.2 = .ofType d.type.span r.1)) ∧
        ((d.init = .absent ∧ init = .absent) ∨ init.Checked p))
      (hsame : init.type.isKnown = true → r.1.isKnown = true → r.1.same init.type = true) :
      Makes P' (do
        let id ← variableId 0
        addVariable id { name := d.name, type := if r.1.isKnown then r.1 else init.type }
        declare d.name span (.variable id)
        return { d with type := r.2, init, id }) (fun d => [(.variable, d.id)]) (fun _ d => [d.declaration])
        fun env p d => Everywhere env Node.Valid p (.letVar span d) := by
    refine makes_variable (fun _ _ _ h => h) (fun _ => rfl) (fun env p id hp => ?_) fun env p id hp => ?_
    · obtain ⟨⟨htype, rfl⟩ | ⟨hknown, htype⟩, hinit⟩ := hP' env p hp
      · obtain ⟨hnone, -⟩ | hinit := hinit
        · rw [htype, hnone] at hpresent
          simp [Expr.isAbsent] at hpresent
        · exact ⟨rfl, hinit.proper⟩
      · simp only [htype, hknown.1.isKnown, if_true]
        exact ⟨rfl, hknown.1⟩
    · obtain ⟨htype, hinit⟩ := hP' env p hp
      refine ⟨?_, fun e he => ?_⟩
      · obtain ⟨htype, rfl⟩ | ⟨hknown, htype⟩ := htype
        · refine .inl ⟨rfl, ?_⟩
          rintro rfl
          obtain ⟨hnone, -⟩ | hinit := hinit
          · rw [htype, hnone] at hpresent
            simp [Expr.isAbsent] at hpresent
          · exact hinit.consistent
        · refine .inr ⟨⟨_, _, htype⟩, ?_⟩
          obtain ⟨-, rfl⟩ | hinit := hinit
          · exact .inl rfl
          · simp only [htype]
            exact .inr (hsame hinit.proper.isKnown hknown.1.isKnown)
      · simp only [Stmt.ownExprs, List.mem_cons, List.not_mem_nil, or_false] at he
        rcases he with rfl | rfl
        · obtain ⟨-, rfl⟩ | ⟨hknown, htype⟩ := htype
          · exact valid_of_optional (.inl rfl)
          · rw [htype]
            exact valid_of_optional (.inr (Expr.checked_ofType _ hknown))
        · exact valid_of_optional (hinit.imp_left (·.2))
  refine .ite (fun _ => ?_) fun hunknown => ?_
  · refine .ite (fun _ => .reject) fun _ => .ite (fun _ => .reject) fun hsame => .ite (fun _ => .reject) fun _ => ?_
    refine tail (fun env p hp => ⟨hp.1.2, hp.2⟩) fun _ hknown => ?_
    simpa [hknown] using hsame
  · refine .ite (fun _ => .reject) fun _ => ?_
    exact tail (fun env p hp => ⟨hp.1.2, hp.2⟩) fun hknown => (hunknown hknown).elim

theorem requireModuleScope_ok {site : Site} {σ σ' : State} {span : Span} {what : Text} {u : Unit}
    (h : requireModuleScope span what site σ = .ok (u, σ')) : site.function = none ∧ σ' = σ := by
  obtain ⟨s, σ₁, hs, hrest⟩ := bind_ok.mp h
  obtain ⟨rfl, rfl⟩ := read_ok.mp hs
  split at hrest
  · exact (reject_ok.mp hrest).elim
  · rename_i hnone
    exact ⟨by simpa using hnone, (pure_ok.mp hrest).2⟩

theorem delivers_requireModuleScope {P : Place → Prop} (span : Span) (what : Text) :
    Delivers P (requireModuleScope span what) fun p _ => p.function = none := by
  refine .of_reads (fun hpq h => hpq.function ▸ h) fun {site σ u σ'} h => ?_
  obtain ⟨hnone, rfl⟩ := requireModuleScope_ok h
  exact ⟨rfl, fun p hsees _ => hsees.function.trans hnone⟩

/-- A constant gets a number, and its name leads to it. -/
theorem makes_constant {α : Type} {P : Claim} {c : Constant} {finish : Int → Check α} {g : Int → α}
    {ks : α → List Key} {D : Surroundings → α → List Referent} {Q : Surroundings → Place → α → Prop}
    (hfinish : ∀ {site σ a σ'} {id : Int}, finish id site σ = .ok (a, σ') →
      a = g id ∧ ∃ d, σ' = { σ with draft := d } ∧ Binds site σ.draft d (· = .constant id))
    (hks : ∀ id, ks (g id) = [(.constant, id)])
    (hD : ∀ env p id, P env p → D env (g id) = [.constant id c.type c.value] ∧
      Referent.Proper (.constant id c.type c.value) ∧ ∀ w, c.fallback = some w → w.HasType c.type)
    (hQ : ∀ env p id, P env p → Q env p (g id)) :
    Makes P (do
      let id ← constantId 0
      addConstant id c
      finish id) ks D Q := by
  refine ⟨fun {site σ a σ'} h => ⟨[], ?_, fun _ => rfl⟩⟩
  obtain ⟨id, σ₁, hid, h⟩ := bind_ok.mp h
  obtain ⟨rfl, hσ₁⟩ := constantId_ok hid
  obtain ⟨u, σ₂, hadd, h⟩ := bind_ok.mp h
  have hσ₂ := modifySession_ok.mp hadd
  obtain ⟨rfl, d, hσ', hbinds⟩ := hfinish h
  subst hσ₁ hσ₂
  rw [hks, hσ']
  refine Step.declared (.constant _ _) hbinds (fun env p _ hp => ?_) fun env p hp => hQ env p _ hp
  obtain ⟨hds, hproper, hfallback⟩ := hD env p σ.session.nextConst hp
  rw [hds]
  refine ⟨⟨c, lookup_new c, List.mem_cons_self⟩, ?_, ?_⟩
  · intro d hd
    rw [List.mem_singleton.mp hd]
    exact ⟨hproper, c, lookup_new c, rfl, rfl, hfallback⟩
  · intro f _ g hg
    cases List.mem_singleton.mp hg

theorem delivers_checkOptionType {P : Place → Prop} (span : Span) (name : Text) {t : Ty} (hP : ∀ p, P p → t.Proper) :
    Delivers P (checkOptionType span name t) fun _ _ => t.scalar?.isSome := by
  unfold checkOptionType
  split
  · exact .pure fun _ _ => rfl
  · exact .pure fun _ _ => rfl
  · exact .pure fun p hp => (hP p hp).elim
  · exact .reject

theorem delivers_optionDefault {P : Place → Prop} (d : OptionDecl) {t : Ty} (hd : d.default.Written)
    (hP : ∀ p, P p → t.Proper ∧ t.scalar?.isSome) :
    Delivers P (optionDefault d t) fun _ r =>
      (r = none ∧ d.default = .absent) ∨ ∃ span v, r = some (span, v) ∧ v.HasType t := by
  unfold optionDefault
  split
  · rename_i habsent
    exact .pure fun _ _ => .inl ⟨rfl, absent_of_isAbsent habsent⟩
  · refine .bind (delivers_expression d.default hd) fun e => ?_
    refine .of_reads (fun _ h => h) fun {site σ r σ'} h => ?_
    obtain ⟨v, σ₁, hv, hrest⟩ := bind_ok.mp h
    obtain ⟨rfl, rfl⟩ := evaluateWithDefaults_ok.mp hv
    cases hvalue : e.evaluate σ₁.session.valueOrDefault? with
    | error err => simp [hvalue] at hrest
    | ok v =>
      simp only [hvalue, reject_bind] at hrest
      split at hrest
      · exact (reject_ok.mp hrest).elim
      · rename_i hsame
        obtain ⟨rfl, rfl⟩ := pure_ok.mp hrest
        refine ⟨rfl, fun p hsees ⟨hp, he⟩ => .inr ⟨e.span, v, rfl, ?_⟩⟩
        obtain ⟨hproper, hscalar⟩ := hP p hp
        have htype := Expr.evaluate_hasType hsees.fits_default e he hvalue
        have heq : v.type = t := Ty.eq_of_same_right hscalar (by simpa [hproper.isKnown] using hsame)
        rw [htype.type_eq he.proper] at heq
        rwa [← heq]

theorem makes_declareOption {P : Claim} (span : Span) (d : OptionDecl) (hd : (Stmt.option span d).Written) :
    Makes P (declareOption span d) (fun d => [(.constant, d.id)]) (fun env d => [d.declaration env.given])
      fun env p d => Everywhere env Node.Valid p (.option span d) := by
  have hid : d.id = 0 := (hd.self rfl).1 (d.declaration {}) List.mem_cons_self
  unfold declareOption
  simp only [hid]
  refine .bind (B := fun _ => True) (delivers_requireModuleScope span _) (fun _ _ _ => trivial) fun _ => ?_
  refine .bind (B := fun _ => True) (delivers_typeNote d.type (hd.expr (by simp [Stmt.ownExprs])))
    (fun _ _ _ => trivial) fun r => ?_
  refine .bind (delivers_checkOptionType span d.name (P := fun p => Known p.context r.1) fun p hp => hp.1)
    (fun _ _ hp => hp.2.1) fun _ => ?_
  refine .bind (delivers_optionDefault (P := fun p => Known p.context r.1 ∧ r.1.scalar?.isSome) d
    (hd.expr (by simp [Stmt.ownExprs])) fun p hp => ⟨hp.1.1, hp.2⟩) (fun _ _ hp => ⟨hp.1.2.1, hp.2⟩) fun fallback => ?_
  simp only [optionValue, bind_assoc]
  refine .read fun site => ?_
  have tail {P' : Claim} {value : Option Value} (hP' : ∀ env p, P' env p →
      (Known p.context r.1 ∧ r.2 = .ofType d.type.span r.1) ∧ value = env.given.get? d.name ∧
        (∀ v, value = some v → v.HasType r.1) ∧
        ((fallback = none ∧ d.default = .absent) ∨ ∃ span v, fallback = some (span, v) ∧ v.HasType r.1)) :
      Makes P' (do
        let id ← constantId 0
        addConstant id { name := d.name, type := r.1, value, fallback := fallback.map (·.2) }
        declare d.name span (.constant id)
        return { d with type := r.2, default := fallback.elim d.default fun f => .ofValue f.1 f.2, id })
        (fun d => [(.constant, d.id)]) (fun env d => [d.declaration env.given])
        fun env p d => Everywhere env Node.Valid p (.option span d) := by
    refine makes_constant
      (g := fun id => { d with type := r.2, default := fallback.elim d.default fun f => .ofValue f.1 f.2, id })
      (fun h => ?_) (fun _ => rfl) (fun env p id hp => ?_) fun env p id hp => ?_
    · obtain ⟨u, σ₁, hdeclare, h⟩ := bind_ok.mp h
      obtain ⟨rfl, rfl⟩ := pure_ok.mp h
      exact ⟨rfl, declare_ok hdeclare⟩
    · obtain ⟨⟨hknown, htype⟩, hvalue, hvalid, hfallback⟩ := hP' env p hp
      refine ⟨?_, ⟨hknown.1, hvalid⟩, fun w hw => ?_⟩
      · rw [OptionDecl.declaration, htype, hvalue]
        rfl
      · obtain ⟨rfl, -⟩ | ⟨span, v, rfl, hv⟩ := hfallback
        · cases hw
        · cases hw
          exact hv
    · obtain ⟨⟨hknown, htype⟩, -, -, hfallback⟩ := hP' env p hp
      refine ⟨⟨⟨_, _, htype⟩, ?_⟩, fun e he => ?_⟩
      · obtain ⟨rfl, hdefault⟩ | ⟨span, v, rfl, hv⟩ := hfallback
        · exact .inl hdefault
        · refine .inr ?_
          show v.type.same r.2.type = true
          rw [htype, hv.type_eq hknown.1]
          exact Ty.same_refl r.1
      · simp only [Stmt.ownExprs, List.mem_cons, List.not_mem_nil, or_false] at he
        rcases he with rfl | rfl
        · rw [htype]
          exact valid_of_optional (.inr (Expr.checked_ofType _ hknown))
        · obtain ⟨rfl, hdefault⟩ | ⟨span, v, rfl, hv⟩ := hfallback
          · exact valid_of_optional (.inl hdefault)
          · exact valid_of_optional (.inr (Expr.checked_ofValue _ hknown.1 hv))
  cases hvalue : site.settings.values.get? d.name with
  | none =>
    simp only [pure_bind]
    refine tail fun env p ⟨⟨⟨⟨_, hr⟩, _⟩, hfallback⟩, hgiven, _⟩ => ⟨hr, ?_, fun v hv => (by cases hv), hfallback⟩
    rw [hgiven, hvalue]
  | some v =>
    simp only [reject_bind, ← ite_bind, pure_bind]
    refine .ite (fun _ => .reject) fun hsame => ?_
    refine tail fun env p ⟨⟨⟨⟨_, hr⟩, hscalar⟩, hfallback⟩, hgiven, hformed⟩ => ⟨hr, ?_, fun w hw => ?_, hfallback⟩
    · rw [hgiven, hvalue]
    · cases hw
      have heq : v.type = r.1 := Ty.eq_of_same_right hscalar (by simpa [hr.1.1.isKnown] using hsame)
      rw [← heq]
      exact hformed _ _ hvalue

/-- What is known of a constant agrees with its declaration. -/
structure Describes (p : Place) (declared : Ty) (c : Constant) (value : Expr) : Prop where
  checked : value.Checked p
  type : c.type = value.type
  known : c.value = value.literal?
  valid : ∀ w, c.value = some w → w.HasType c.type
  fallback : ∀ w, c.fallback = some w → w.HasType c.type
  declared : declared.isKnown = true → declared.same value.type = true

theorem literal_of_error {lookup : Int → Option Value} {e : Expr} {err : EvalError} (h : e.evaluate lookup = .error err) :
    e.literal? = none := by
  cases e with
  | literal i v => cases h
  | _ => rfl

theorem delivers_constantInfo {P : Place → Prop} (name : Text) (declared : Ty) {e : Expr} (hP : ∀ p, P p → e.Checked p) :
    Delivers P (constantInfo name declared e) fun p r => Describes p declared r.1 r.2 := by
  have lasting : Lasting fun p (r : Constant × Expr) => Describes p declared r.1 r.2 :=
    fun hpq h => ⟨h.checked.mono hpq, h.type, h.known, h.valid, h.fallback, h.declared⟩
  unfold constantInfo
  split
  · rename_i hunknown
    refine .pure fun p hp => ?_
    simp [known_of_checked (hP p hp)] at hunknown
  simp only [reject_bind]
  split
  · exact .reject
  rename_i hdeclared
  refine .of_reads lasting fun {site σ r σ'} h => ?_
  obtain ⟨x, σ₁, hx, hrest⟩ := bind_ok.mp h
  obtain ⟨rfl, rfl⟩ := evaluateWithDefaults_ok.mp hx
  cases hfallback : e.evaluate σ₁.session.valueOrDefault? with
  | error err => simp [hfallback] at hrest
  | ok fallback =>
    simp only [hfallback] at hrest
    obtain ⟨y, σ₂, hy, hpure⟩ := bind_ok.mp hrest
    obtain ⟨rfl, rfl⟩ := evaluate_ok.mp hy
    obtain ⟨rfl, rfl⟩ := pure_ok.mp hpure
    refine ⟨rfl, fun p hsees hp => ?_⟩
    have he := hP p hp
    have hsame : declared.isKnown = true → declared.same e.type = true := by
      intro hknown
      simpa [hknown] using hdeclared
    have hdefault : ∀ w, some fallback = some w → w.HasType e.type := by
      intro w hw
      cases hw
      exact Expr.evaluate_hasType hsees.fits_default e he hfallback
    cases hvalue : e.evaluate σ'.session.value? with
    | error err =>
      exact ⟨he, rfl, (literal_of_error hvalue).symm, fun w hw => (by cases hw), hdefault, hsame⟩
    | ok v =>
      have hv := Expr.evaluate_hasType hsees.fits e he hvalue
      have htype : (Expr.ofValue e.span v).type = e.type := hv.type_eq he.proper
      refine ⟨Expr.checked_ofValue _ he.proper hv, htype.symm, rfl, fun w hw => ?_, hdefault, fun hknown => ?_⟩
      · cases hw
        exact hv
      · show declared.same (Expr.ofValue e.span v).type = true
        rw [htype]
        exact hsame hknown

theorem makes_declareConst {P : Claim} (span : Span) (d : ConstDecl) (hd : (Stmt.const span d).Written) :
    Makes P (declareConst span d) (fun d => [(.constant, d.id)]) (fun _ d => [d.declaration])
      fun env p d => Everywhere env Node.Valid p (.const span d) := by
  have hid : d.id = 0 := (hd.self rfl).1 d.declaration List.mem_cons_self
  unfold declareConst
  simp only [ite_bind, hid]
  refine .bind (B := fun _ => True) (delivers_typeNoteOr _ d.type (hd.expr (by simp [Stmt.ownExprs])))
    (fun _ _ _ => trivial) fun r => ?_
  refine .bind (B := fun _ => True) (delivers_expression d.value (hd.expr (by simp [Stmt.ownExprs])))
    (fun _ _ _ => trivial) fun e => ?_
  refine .bind (B := fun _ => True) (delivers_boolAttr d.exported (hd.expr (by simp [Stmt.ownExprs])))
    (fun _ _ _ => trivial) fun exported => ?_
  refine .bind (delivers_constantInfo (P := fun p => e.Checked p) d.name r.1 fun p hp => hp) (fun _ _ hp => hp.1.2)
    fun info => ?_
  refine makes_constant (g := fun id => { d with type := r.2, value := info.2, exported, id })
    (fun h => ?_) (fun _ => rfl) (fun env p id hp => ?_) fun env p id hp => ?_
  · obtain ⟨u, σ₁, hpublish, h⟩ := bind_ok.mp h
    obtain ⟨d₁, rfl, hbinds⟩ := publish_ok hpublish
    obtain ⟨v, σ₂, hdeclare, h⟩ := bind_ok.mp h
    obtain ⟨d₂, rfl, hbinds'⟩ := declare_ok hdeclare
    obtain ⟨rfl, rfl⟩ := pure_ok.mp h
    exact ⟨rfl, d₂, rfl, hbinds.trans hbinds'⟩
  · obtain ⟨-, hinfo⟩ := hp
    refine ⟨?_, ⟨?_, hinfo.valid⟩, hinfo.fallback⟩
    · rw [ConstDecl.declaration, hinfo.type, hinfo.known]
    · rw [hinfo.type]
      exact hinfo.checked.proper
  · obtain ⟨⟨⟨⟨_, htype⟩, _⟩, hexported⟩, hinfo⟩ := hp
    refine ⟨⟨?_, ?_⟩, fun x hx => ?_⟩
    · intro habsent
      have := hinfo.checked.not_absent
      rw [show info.2 = Expr.absent from habsent] at this
      cases this
    · obtain ⟨-, hr⟩ | ⟨hknown, htype⟩ := htype
      · exact .inl (by rw [hr])
      · refine .inr ⟨⟨_, _, htype⟩, ?_⟩
        show r.2.type.same info.2.type = true
        rw [htype]
        exact hinfo.declared hknown.1.isKnown
    · simp only [Stmt.ownExprs, List.mem_cons, List.not_mem_nil, or_false] at hx
      rcases hx with rfl | rfl | rfl
      · obtain ⟨-, hr⟩ | ⟨hknown, htype⟩ := htype
        · exact valid_of_optional (.inl (by rw [hr]))
        · rw [htype]
          exact valid_of_optional (.inr (Expr.checked_ofType _ hknown))
      · exact valid_of_optional (.inr hinfo.checked)
      · exact valid_of_optional (.inl hexported)

/-- Is it something that an alias may stand for? -/
def IsTarget : Expr → Prop
  | .function .. | .structRef .. | .typeRef .. | .intrinsicRef .. => True
  | _ => False

/-- What an alias stands for leads to declarations. -/
theorem Sees.target {p : Place} (h : Sees site p σ) {e : Expr} (he : e.Checked p) (htarget : IsTarget e) :
    LeadsToTarget σ.session p.context e := by
  cases e with
  | function i id =>
    obtain ⟨f, hf, rfl, -⟩ := he.consistent
    exact ⟨f, h.recorded _ hf, hf, rfl⟩
  | structRef i id =>
    obtain ⟨r, hr, rfl, -⟩ := he.consistent
    obtain ⟨ms, hms⟩ := h.recorded _ hr
    exact ⟨⟨ms, r⟩, hms, hr, rfl⟩
  | typeRef i t =>
    obtain ⟨htype, -⟩ := he.consistent
    refine ⟨?_, he.rules.2.2 trivial⟩
    rw [← htype]
    exact he.proper
  | intrinsicRef => trivial
  | _ => exact htarget.elim

theorem delivers_aliasTarget {P : Place → Prop} (e : Expr) (he : e.Written) :
    Delivers P (aliasTarget e) fun p r => r.Checked p ∧ IsTarget r := by
  refine .bind (delivers_typeOf e he) fun r => ?_
  split
  · rename_i r
    refine .pure fun p hp => ⟨?_, trivial⟩
    obtain ⟨hproper, hmem⟩ := hp.2 _ rfl
    exact .mk ⟨hproper, ⟨r, hmem r rfl, rfl, rfl⟩, trivial⟩ fun c hc => (by cases hc)
  · exact .pure fun p hp => ⟨Expr.checked_ofType _ (hp.2 _ rfl), trivial⟩
  · refine .bind (delivers_expression e he) fun e' => ?_
    split
    case h_5 => exact .pure fun p hp => hp.2.consistent.elim
    case h_6 => exact .reject
    all_goals exact .pure fun p hp => ⟨hp.2, trivial⟩

theorem makes_declareAlias {P : Claim} (span : Span) (d : AliasDecl) (hd : (Stmt.alias span d).Written) :
    Makes P (declareAlias span d) (fun d => [(.alias, d.id)]) (fun _ d => [.alias d.id])
      fun env p d => Everywhere env Node.Valid p (.alias span d) := by
  have hid : d.id = 0 := (hd.self rfl).1 (.alias d.id) List.mem_cons_self
  unfold declareAlias
  rw [hid]
  refine .bind (B := fun _ => True) (delivers_aliasTarget d.target (hd.expr (by simp [Stmt.ownExprs])))
    (fun _ _ _ => trivial) fun target => ?_
  refine .bind (B := fun _ => True) (delivers_boolAttr d.exported (hd.expr (by simp [Stmt.ownExprs])))
    (fun _ _ _ => trivial) fun exported => ?_
  refine ⟨fun {site σ a σ'} h => ⟨[], ?_, fun _ => rfl⟩⟩
  obtain ⟨id, σ₁, hrun, h⟩ := bind_ok.mp h
  obtain ⟨rfl, rfl⟩ := aliasId_ok hrun
  obtain ⟨u, σ₂, hpublish, h⟩ := bind_ok.mp h
  obtain ⟨d₁, rfl, hbinds⟩ := publish_ok hpublish
  obtain ⟨v, σ₃, hdeclare, h⟩ := bind_ok.mp h
  obtain ⟨d₂, rfl, hbinds'⟩ := declare_ok hdeclare
  obtain ⟨rfl, rfl⟩ := pure_ok.mp h
  refine Step.declared (.alias _) (hbinds.trans hbinds') (fun env p hstands hp => ?_) fun env p hp => ?_
  · refine ⟨?_, fun d hd => ?_, fun f _ g hg => (by cases List.mem_singleton.mp hg)⟩
    · exact (hstands.sees.target hp.1.2.1 hp.1.2.2).mono ⟨id, id, id, id⟩ (List.subset_append_right _ _)
    · rw [List.mem_singleton.mp hd]
      exact ⟨trivial, trivial⟩
  · obtain ⟨⟨_, htarget, -⟩, hexported⟩ := hp
    refine ⟨trivial, fun e he => ?_⟩
    simp only [Stmt.ownExprs, List.mem_cons, List.not_mem_nil, or_false] at he
    rcases he with rfl | rfl
    · exact valid_of_optional (.inr htarget)
    · exact valid_of_optional (.inl hexported)

end Shading.Check
