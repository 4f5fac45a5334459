import Shading.Proofs.Check.Nesting
import Shading.Proofs.Check.Declaring
import Shading.Proofs.Check.Importing

/-! Checks of statements and of modules in any session. They declare constants, so that more can be referred to after
them than before. What has been declared stays of proper types, the results are sound, and the declarations of constants
in them are just those that have been added to the session, in which they have the values that they say. -/
namespace Shading

variable {Γ Δ : Int → Ty → Prop}

theorem Expr.Decides.mono {c : Expr} (hsub : ∀ {id t}, Γ id t → Δ id t) (h : c.Decides Γ) : c.Decides Δ :=
  ⟨h.bool, h.sound.mono hsub⟩

theorem Stmt.Counted.mono {h : RangeHead} {p : Primitive} (hsub : ∀ {id t}, Γ id t → Δ id t) (hh : Stmt.Counted Γ h p) :
    Stmt.Counted Δ h p :=
  ⟨hh.integer, hh.start.mono hsub, hh.stop.mono hsub, hh.step.mono hsub, hh.stopType, hh.stepType, hh.unroll.mono hsub⟩

/-- The number of a declaration of a constant or of an option. -/
def Stmt.constantId : Stmt → Int
  | .const _ d => d.id
  | .option _ d => d.id
  | _ => 0

theorem Stmt.constants_of_leaf {x : Stmt} (hx : x.isDeclaration = false) (hchildren : x.children = []) :
    x.constants = [] := gather_leaf constant_fromDeclarations hx hchildren

namespace Check

variable {α β : Type}

namespace Session

/-- The declarations of constants in the modules that are done. -/
def finishedConstants (s : Session) : List Stmt := s.finished.flatMap fun f => f.2.result.rootStmt.constants

/-- How many constants have a number. -/
def uses (s : Session) (id : Int) : Nat := (s.constants.map (·.1)).count id

/-- How many declarations have a number. -/
def declared (ds : List Stmt) (id : Int) : Nat := (ds.map Stmt.constantId).count id

theorem declared_append (ds es : List Stmt) (id : Int) : declared (ds ++ es) id = declared ds id + declared es id := by
  rw [declared, List.map_append, List.count_append, declared, declared]

/-- Constants have been added, each with a declaration: one of those listed, or one of a module that has been done
since. -/
structure Enlarges (s : Session) (ds : List Stmt) (s' : Session) : Prop where
  older : s.constants <:+ s'.constants
  previous : s'.previous = s.previous
  counts : ∀ id, s'.uses id + declared s.finishedConstants id =
    s.uses id + declared ds id + declared s'.finishedConstants id

variable {s s₁ s' : Session} {ds es : List Stmt}

theorem Steady.enlarges (h : s.Steady s') : s.Enlarges [] s' := by
  refine ⟨h.constants ▸ List.suffix_refl _, h.previous, fun id => ?_⟩
  simp only [uses, finishedConstants, h.constants, h.finished]
  rfl

theorem Enlarges.refl (s : Session) : s.Enlarges [] s := Steady.enlarges (.refl s)

theorem Enlarges.trans (h : s.Enlarges ds s₁) (h' : s₁.Enlarges es s') : s.Enlarges (ds ++ es) s' := by
  refine ⟨h.older.trans h'.older, h'.previous.trans h.previous, fun id => ?_⟩
  have hcount := h.counts id
  have hcount' := h'.counts id
  rw [declared_append]
  omega

theorem Enlarges.recorded (h : s.Enlarges ds s') {id : Int} {t : Ty} (hr : s.Recorded id t) : s'.Recorded id t := by
  obtain ⟨c, hc, ht⟩ := hr
  exact ⟨c, h.older.subset hc, ht⟩

theorem Enlarges.current (h : s.Enlarges ds s') {id : Int} {t : Ty} (hc : s.Current id t) : s'.Recorded id t :=
  h.recorded hc.recorded

end Session

end Check

/-- Is what a session has of a constant what its declaration says, given what had been declared before? -/
def Stmt.Entered (given : OptionValues) (s : Check.Session) : Stmt → Prop
  | .const _ d => ∃ c older v, (d.id, c) :: older <:+ s.constants ∧
      d.value.evaluate ({ constants := older } : Check.Session).valueOrDefault? = .ok v ∧
      (c.value <|> c.fallback) = some v ∧ c.type = d.value.type ∧
      ∀ w, c.value = some w → ∃ span, d.value = .ofValue span w
  | .option _ d => ∃ c older, (d.id, c) :: older <:+ s.constants ∧ c.value = given.get? d.name ∧
      (c.fallback = none → d.default.isAbsent) ∧ ∀ v, c.fallback = some v → ∃ span, d.default = .ofValue span v
  | _ => True

theorem Stmt.Entered.mono {given : OptionValues} {s s' : Check.Session} {ds : List Stmt} (hs : s.Enlarges ds s') {y : Stmt}
    (h : y.Entered given s) : y.Entered given s' := by
  cases y with
  | const span d =>
    obtain ⟨c, older, v, hsuffix, hrest⟩ := h
    exact ⟨c, older, v, hsuffix.trans hs.older, hrest⟩
  | option span d =>
    obtain ⟨c, older, hsuffix, hrest⟩ := h
    exact ⟨c, older, hsuffix.trans hs.older, hrest⟩
  | _ => trivial

/-- Declarations keep the numbers of other ones, in their order and some perhaps left out, if all those have numbers. -/
def Stmt.Keeps (cs ds : List Stmt) : Prop :=
  (∀ c ∈ cs, c.constantId ≠ 0) → (ds.map constantId).Sublist (cs.map constantId)

namespace Stmt.Keeps

variable {cs cs' ds ds' : List Stmt}

theorem nothing (cs : List Stmt) : Keeps cs [] := fun _ => List.nil_sublist _

theorem one {c d : Stmt} (h : c.constantId ≠ 0 → d.constantId = c.constantId) : Keeps [c] [d] := by
  intro hcs
  rw [List.map_singleton, List.map_singleton, h (hcs c (List.mem_singleton.mpr rfl))]

theorem append (h : Keeps cs ds) (h' : Keeps cs' ds') : Keeps (cs ++ cs') (ds ++ ds') := by
  intro hcs
  rw [List.forall_mem_append] at hcs
  rw [List.map_append, List.map_append]
  exact (h hcs.1).append (h' hcs.2)

theorem among (h : Keeps cs ds) (hcs : cs.Sublist cs') : Keeps cs' ds :=
  fun hids => (h fun c hc => hids c (hcs.subset hc)).trans (hcs.map constantId)

end Stmt.Keeps

namespace Check

/-- What becomes of statements is sound, and the declarations of constants in it are entered. These keep the numbers that
they had. -/
structure Adds (settings : CheckSettings) (s : Session) (ss xs ds : List Stmt) : Prop where
  constants : xs.flatMap Stmt.constants = ds
  entered : ∀ d ∈ ds, d.Entered settings.values s
  sound : ∀ x ∈ xs, x.Sound s.Recorded
  numbers : Stmt.Keeps (ss.flatMap Stmt.constants) ds

namespace Adds

variable {settings : CheckSettings} {s s' : Session} {ss ss' xs ys ds es : List Stmt}

theorem nothing (hconstants : ∀ x ∈ xs, x.constants = []) (hsound : ∀ x ∈ xs, x.Sound s.Recorded) :
    Adds settings s ss xs [] :=
  ⟨List.flatMap_eq_nil_iff.mpr hconstants, fun _ hd => absurd hd List.not_mem_nil, hsound, .nothing _⟩

theorem one {x : Stmt} (hconstants : x.constants = []) (hsound : x.Sound s.Recorded) : Adds settings s ss [x] [] :=
  nothing (List.forall_mem_singleton.mpr hconstants) (List.forall_mem_singleton.mpr hsound)

theorem append (h : Adds settings s ss xs ds) (h' : Adds settings s ss' ys es) :
    Adds settings s (ss ++ ss') (xs ++ ys) (ds ++ es) := by
  refine ⟨?_, List.forall_mem_append.mpr ⟨h.entered, h'.entered⟩, List.forall_mem_append.mpr ⟨h.sound, h'.sound⟩, ?_⟩
  · rw [List.flatMap_append, h.constants, h'.constants]
  · rw [List.flatMap_append]
    exact h.numbers.append h'.numbers

theorem mono (hs : s.Enlarges es s') (h : Adds settings s ss xs ds) : Adds settings s' ss xs ds :=
  ⟨h.constants, fun d hd => (h.entered d hd).mono hs, fun x hx => (h.sound x hx).mono hs.recorded, h.numbers⟩

/-- Statements that are parts of others. -/
theorem among (h : Adds settings s ss xs ds)
    (hss : (ss.flatMap Stmt.constants).Sublist (ss'.flatMap Stmt.constants)) : Adds settings s ss' xs ds :=
  ⟨h.constants, h.entered, h.sound, h.numbers.among hss⟩

/-- The parts of a statement become parts of a statement. -/
theorem within (h : Adds settings s ss xs ds) {x y : Stmt} (hparts : y.constants = ss.flatMap Stmt.constants)
    (hconstants : x.constants = xs.flatMap Stmt.constants) (hsound : x.Sound s.Recorded) :
    Adds settings s [y] [x] ds := by
  refine ⟨?_, h.entered, List.forall_mem_singleton.mpr hsound, ?_⟩
  · rw [List.flatMap_singleton, hconstants, h.constants]
  · rw [List.flatMap_singleton, hparts]
    exact h.numbers

theorem sound_one {x : Stmt} (h : Adds settings s ss [x] ds) : x.Sound s.Recorded := h.sound x (List.mem_singleton.mpr rfl)

end Adds

/-- What has been declared is of proper types, and the declarations of constants in modules that are done are entered.
They keep the numbers that they had. -/
structure State.Upheld (settings : CheckSettings) (σ : State) : Prop where
  typed : σ.Typed
  entered : ∀ d ∈ σ.session.finishedConstants, d.Entered settings.values σ.session
  numbers : ∀ f ∈ σ.session.finished, ∃ m, Finds settings σ.session.previous f.1 m ∧
    Stmt.Keeps m.rootStmt.constants f.2.result.rootStmt.constants

/-- A check from a session on. Constants may be declared, and the result has a property at the end of it. -/
structure Sustains (settings : CheckSettings) (s : Session) (x : Check α) (Q : Session → α → List Stmt → Prop) : Prop where
  run : ∀ {site σ a σ'}, settings.Regular → site.settings = settings → σ.Upheld settings → σ.session = s →
    x site σ = .ok (a, σ') → σ'.Upheld settings ∧ ∃ ds, s.Enlarges ds σ'.session ∧ Q σ'.session a ds

variable {settings : CheckSettings}

theorem State.Upheld.steady {σ σ' : State} (h : σ.Upheld settings) (htyped : σ'.Typed)
    (hsteady : σ.session.Steady σ'.session) : σ'.Upheld settings := by
  refine ⟨htyped, ?_, ?_⟩
  · unfold Session.finishedConstants
    rw [hsteady.finished]
    exact fun d hd => (h.entered d hd).mono hsteady.enlarges
  · rw [hsteady.finished, hsteady.previous]
    exact h.numbers

/-- At the start of a scope. -/
theorem State.Upheld.enter {σ : State} (h : σ.Upheld settings) : σ.enter.Upheld settings := by
  have htyped := h.typed
  refine ⟨⟨htyped.session, ?_, htyped.exports, htyped.wildcard, htyped.pending⟩, h.entered, h.numbers⟩
  intro level hlevel b hb
  rcases List.mem_cons.mp hlevel with rfl | hlevel
  · cases hb
  · exact htyped.scopes level hlevel b hb

/-- Where declarations that have to stand before a statement are collected. -/
theorem State.Upheld.aside {σ : State} (h : σ.Upheld settings) : (σ.withPending []).Upheld settings :=
  ⟨⟨h.typed.session, h.typed.scopes, h.typed.exports, h.typed.wildcard, nofun⟩, h.entered, h.numbers⟩

/-- At the start of an imported module. -/
theorem State.Upheld.apart {σ : State} (h : σ.Upheld settings) (name : Text) :
    State.Upheld settings { session := σ.session.enter name } := by
  refine ⟨⟨h.typed.session.of_same rfl rfl rfl rfl rfl rfl rfl, nofun, nofun, rfl, nofun⟩, fun d hd => ?_, h.numbers⟩
  exact (h.entered d hd).mono (Session.Steady.enlarges ⟨rfl, rfl, rfl⟩)

namespace Sustains

variable {s : Session} {x : Check α} {P Q : Session → α → List Stmt → Prop} {R : Session → β → List Stmt → Prop}

theorem pure {a : α} (h : Q s a []) : Sustains settings s (Pure.pure a) Q := by
  refine ⟨fun _ _ hσ hs hx => ?_⟩
  obtain ⟨rfl, rfl⟩ := pure_ok.mp hx
  subst hs
  exact ⟨hσ, [], .refl _, h⟩

theorem reject {span : Span} {r : Rejection} : Sustains settings s (Check.reject span r : Check α) Q :=
  ⟨fun _ _ _ _ hx => (reject_ok.mp hx).elim⟩

theorem bind {f : α → Check β} (hx : Sustains settings s x P)
    (hf : ∀ s₁ a ds, s.Enlarges ds s₁ → P s₁ a ds → Sustains settings s₁ (f a) fun s' b es => R s' b (ds ++ es)) :
    Sustains settings s (x >>= f) R := by
  refine ⟨fun hsettings hsite hσ hs h => ?_⟩
  obtain ⟨a, σ₁, hrun, hrest⟩ := bind_ok.mp h
  obtain ⟨hσ₁, ds, hlarger, ha⟩ := hx.run hsettings hsite hσ hs hrun
  obtain ⟨hσ', es, hlarger', hb⟩ := (hf σ₁.session a ds hlarger ha).run hsettings hsite hσ₁ rfl hrest
  exact ⟨hσ', ds ++ es, hlarger.trans hlarger', hb⟩

/-- What declares no constants goes first. -/
theorem steady {P : α → Prop} {Γ : Int → Ty → Prop} {f : α → Check β} (hΓ : s.Current = Γ) (hx : Upholds Γ x P)
    (hf : ∀ s₁ a, s.Steady s₁ → s₁.Current = Γ → P a → Sustains settings s₁ (f a) R) : Sustains settings s (x >>= f) R := by
  refine ⟨fun {site σ b σ'} hsettings hsite hσ hs h => ?_⟩
  subst hs
  obtain ⟨a, σ₁, hrun, hrest⟩ := bind_ok.mp h
  obtain ⟨hσ₁, hsteady, ha⟩ := hx.run hσ.typed hΓ hrun
  obtain ⟨hσ', ds, hlarger, hb⟩ := (hf σ₁.session a hsteady (hsteady.current.trans hΓ) ha).run hsettings hsite
    (hσ.steady hσ₁ hsteady) rfl hrest
  exact ⟨hσ', ds, hsteady.enlarges.trans hlarger, hb⟩

/-- What is read first changes nothing. -/
theorem looking {P : α → Prop} {f : α → Check β} (hx : Reads x)
    (h : ∀ {site σ a}, settings.Regular → site.settings = settings → σ.Typed → σ.session = s →
      x site σ = .ok (a, σ) → P a)
    (hf : ∀ a, P a → Sustains settings s (f a) R) : Sustains settings s (x >>= f) R := by
  refine ⟨fun hsettings hsite hσ hs hrun => ?_⟩
  obtain ⟨a, σ₁, hrun, hrest⟩ := bind_ok.mp hrun
  obtain rfl := hx.run hrun
  exact (hf a (h hsettings hsite hσ.typed hs hrun)).run hsettings hsite hσ hs hrest

theorem reading {f : α → Check β} (hx : Reads x) (hf : ∀ a, Sustains settings s (f a) R) : Sustains settings s (x >>= f) R :=
  .looking (P := fun _ => True) hx (fun _ _ _ _ _ => trivial) fun a _ => hf a

theorem post (hx : Sustains settings s x P) (h : ∀ s' a ds, s.Enlarges ds s' → P s' a ds → Q s' a ds) :
    Sustains settings s x Q := by
  refine ⟨fun hsettings hsite hσ hs hrun => ?_⟩
  obtain ⟨hσ', ds, hlarger, ha⟩ := hx.run hsettings hsite hσ hs hrun
  exact ⟨hσ', ds, hlarger, h _ _ _ hlarger ha⟩

/-- A check that declares no constants. -/
theorem of_upholds {P : α → Prop} (hx : Upholds s.Current x P) (h : ∀ s' a, s.Steady s' → P a → Q s' a []) :
    Sustains settings s x Q := by
  have hrun : Sustains settings s (x >>= Pure.pure) Q := .steady rfl hx fun s₁ a hs₁ _ ha => .pure (h s₁ a hs₁ ha)
  rwa [bind_pure] at hrun

theorem withReader {f : Site → Site} (hf : ∀ site, (f site).settings = site.settings) (hx : Sustains settings s x Q) :
    Sustains settings s (MonadWithReader.withReader f x) Q :=
  ⟨fun {site _ _ _} hsettings hsite hσ hs h =>
    hx.run hsettings ((hf site).trans hsite) hσ hs (withReader_ok.mp h)⟩

theorem inScope (hx : Sustains settings s x Q) : Sustains settings s (inScope x) Q := by
  refine ⟨fun {site σ a σ'} hsettings hsite hσ hs h => ?_⟩
  obtain ⟨σ₁, hrun, rfl⟩ := inScope_ok h
  obtain ⟨hσ₁, hrest⟩ := hx.run hsettings hsite hσ.enter hs hrun
  have htyped := hσ₁.typed
  refine ⟨⟨⟨htyped.session, ?_, htyped.exports, htyped.wildcard, htyped.pending⟩, hσ₁.entered, hσ₁.numbers⟩, hrest⟩
  intro level hlevel
  exact htyped.scopes level (List.mem_of_mem_tail hlevel)

/-- What is put before a statement declares no constants. -/
theorem collecting (hx : Sustains settings s x Q) :
    Sustains settings s (collecting x) fun s' r ds => Adds settings s' [] r.1 [] ∧ Q s' r.2 ds := by
  refine ⟨fun {site σ r σ'} hsettings hsite hσ hs h => ?_⟩
  obtain ⟨σ₁, hrun, hpending, rfl⟩ := collecting_ok h
  have htyped := hσ.typed
  obtain ⟨hσ₁, ds, hlarger, ha⟩ := hx.run hsettings hsite hσ.aside hs hrun
  have htyped₁ := hσ₁.typed
  refine ⟨⟨⟨htyped₁.session, htyped₁.scopes, htyped₁.exports, htyped₁.wildcard, ?_⟩, hσ₁.entered, hσ₁.numbers⟩, ds, hlarger, ?_, ha⟩
  · intro p hp
    obtain ⟨hvariable, hsound⟩ := htyped.pending p hp
    exact ⟨hvariable, hsound.mono fun hr => hlarger.recorded (hs ▸ hr)⟩
  · rw [hpending]
    refine .nothing (fun p hp => ?_) fun p hp => (htyped₁.pending p hp).2
    obtain ⟨⟨span, d, rfl⟩, -⟩ := htyped₁.pending p hp
    exact Stmt.constants_of_leaf rfl rfl

end Sustains

section

variable {s : Session}

/-- A constant that is added for its declaration. -/
theorem sustains_addConstant (y : Stmt) {c : Constant} (hc : c.Typed) :
    Sustains settings s (addConstant y.constantId c) fun s' _ ds =>
      s'.constants = (y.constantId, c) :: s.constants ∧ ds = [y] := by
  refine ⟨fun {site σ u σ'} _ _ hσ hs h => ?_⟩
  rw [modifySession_ok.mp h]
  subst hs
  have hlarger : σ.session.Enlarges [y] { σ.session with constants := (y.constantId, c) :: σ.session.constants } := by
    refine ⟨List.suffix_cons _ _, rfl, fun id => ?_⟩
    simp only [Session.uses, Session.declared, Session.finishedConstants, List.map_cons, List.map_nil, List.count_cons,
      List.count_nil]
    omega
  have htyped := hσ.typed
  refine ⟨⟨⟨?_, htyped.scopes, htyped.exports, htyped.wildcard, ?_⟩, ?_, hσ.numbers⟩, [y], hlarger, rfl, rfl⟩
  · have hsession := htyped.session
    refine { hsession with constants := List.forall_mem_cons.mpr ⟨hc, hsession.constants⟩, finished := ?_ }
    intro f hf
    obtain ⟨hsound, hknown⟩ := hsession.finished f hf
    exact ⟨hsound.mono hlarger.recorded, hknown⟩
  · intro p hp
    obtain ⟨hvariable, hsound⟩ := htyped.pending p hp
    exact ⟨hvariable, hsound.mono hlarger.recorded⟩
  · exact fun d hd => (hσ.entered d hd).mono hlarger

/-- The value that is given for an option is of its type. -/
theorem optionValue_ok {site : Site} {σ σ' : State} {span : Span} {name : Text} {t : Ty} {r : Option Value}
    (hsite : site.settings.Regular) (ht : t.Proper) (hscalar : t.scalar?.isSome)
    (h : optionValue span name t site σ = .ok (r, σ')) :
    r = site.settings.values.get? name ∧ ∀ v ∈ r, v.HasType t := by
  obtain ⟨site', σ₁, hread, hrest⟩ := bind_ok.mp h
  obtain ⟨rfl, rfl⟩ := read_ok.mp hread
  cases hgiven : site'.settings.values.get? name with
  | none =>
    rw [hgiven] at hrest
    obtain ⟨rfl, -⟩ := pure_ok.mp hrest
    exact ⟨rfl, nofun⟩
  | some v =>
    rw [hgiven] at hrest
    simp only [reject_bind] at hrest
    split at hrest
    · exact (reject_ok.mp hrest).elim
    · rename_i hsame
      rw [ht.isKnown, Bool.true_and, Bool.not_eq_true', Bool.not_eq_false] at hsame
      obtain ⟨rfl, -⟩ := pure_ok.mp hrest
      refine ⟨rfl, fun w hw => ?_⟩
      rw [← Option.some.inj hw]
      have htype : v.type = t := Ty.eq_of_same_right hscalar hsame
      exact htype ▸ hsite.given name v hgiven

theorem sustains_declareOption {span : Span} {d : OptionDecl} (h : (Stmt.option span d).Regular) :
    Sustains settings s (declareOption span d) fun s' d' ds => Adds settings s' [.option span d] [.option span d'] ds := by
  have htype : d.type.Regular := h.expr (by simp [Stmt.ownExprs])
  have hdefault : d.default.Regular := h.expr (by simp [Stmt.ownExprs])
  refine .reading (reads_requireModuleScope _ _) fun _ => ?_
  refine .steady rfl (upholds_typeNote htype) fun s₁ r _ hc₁ ⟨hproper, htyped⟩ => ?_
  refine .steady hc₁ (upholds_checkOptionType _ _ hproper) fun s₂ _ _ hc₂ hscalar => ?_
  refine .steady hc₂ (upholds_optionDefault hdefault hproper hscalar) fun s₃ fallback _ hc₃ ⟨hnone, hfallback⟩ => ?_
  refine .looking (P := fun value => value = settings.values.get? d.name ∧ ∀ v ∈ value, v.HasType r.1) (reads_optionValue _ _ _)
    (fun hsettings hsite _ _ hrun => ?_) fun value ⟨hvalue, hof⟩ => ?_
  · subst hsite
    exact optionValue_ok hsettings hproper hscalar hrun
  refine .steady hc₃ (upholds_constantId _) fun s₄ id _ hc₄ hid => ?_
  have hconstant : ({ name := d.name, type := r.1, value, fallback := fallback.map (·.2) } : Constant).Typed := by
    refine ⟨hproper, hof, fun v hv => ?_⟩
    obtain ⟨x, hx, rfl⟩ := Option.map_eq_some_iff.mp hv
    exact hfallback x hx
  have hd (Γ : Int → Ty → Prop) : (fallback.elim d.default fun f => Expr.ofValue f.1 f.2).Sound Γ := by
    cases fallback with
    | none => exact .of_isAbsent (hnone rfl)
    | some x => exact (Expr.Typed.ofValue x.1 hproper (hfallback x rfl)).sound
  refine .bind (sustains_addConstant (.option span
    { d with type := r.2, default := fallback.elim d.default fun f => .ofValue f.1 f.2, id }) hconstant) ?_
  rintro s₅ - _ h₅ ⟨hconstants, rfl⟩
  refine .steady rfl (upholds_declare _ _ trivial) fun s₆ _ h₆ _ _ => .pure ?_
  rw [List.append_nil]
  refine ⟨by simp, List.forall_mem_singleton.mpr ?_, List.forall_mem_singleton.mpr ?_, by simpa using .one hid⟩
  · refine ⟨{ name := d.name, type := r.1, value, fallback := fallback.map (·.2) }, s₄.constants, ?_, hvalue,
      fun hc => ?_, fun v hv => ?_⟩
    · rw [h₆.constants, hconstants]
      exact List.suffix_refl _
    · cases fallback with
      | none => exact hnone rfl
      | some x => cases hc
    · obtain ⟨x, rfl, rfl⟩ := Option.map_eq_some_iff.mp hv
      exact ⟨x.1, rfl⟩
  · refine (Stmt.sound_option _ _).mpr ⟨htyped.sound.mono fun hc => ?_, hd _⟩
    exact (h₅.trans h₆.enlarges).current (hc₄ ▸ hc)

/-- What is left of the value of a constant has the value that is known of the constant, and is a literal if no defaults
are needed to know it. -/
theorem constantInfo_ok {site : Site} {σ σ' : State} {name : Text} {t : Ty} {e : Expr} {r : Constant × Expr}
    (hσ : σ.Typed) (he : e.Typed σ.session.Current) (h : constantInfo name t e site σ = .ok (r, σ')) :
    ∃ v, r.2.evaluate σ.session.valueOrDefault? = .ok v ∧ (r.1.value <|> r.1.fallback) = some v ∧
      r.1.type = r.2.type ∧ ∀ w, r.1.value = some w → ∃ span, r.2 = .ofValue span w := by
  unfold constantInfo at h
  rw [he.known] at h
  simp only [reject_bind] at h
  split at h
  · rename_i hfalse
    cases hfalse
  split at h
  · exact (reject_ok.mp h).elim
  obtain ⟨fallback, σ₁, hfallback, h⟩ := bind_ok.mp h
  obtain ⟨rfl, rfl⟩ := evaluateWithDefaults_ok.mp hfallback
  cases hd : e.evaluate σ₁.session.valueOrDefault? with
  | error err =>
    rw [hd] at h
    exact (reject_ok.mp h).elim
  | ok fallback =>
    rw [hd] at h
    obtain ⟨known, σ₂, hknown, h⟩ := bind_ok.mp h
    obtain ⟨rfl, rfl⟩ := evaluate_ok.mp hknown
    obtain ⟨rfl, -⟩ := pure_ok.mp h
    cases hv : e.evaluate σ₂.session.value? with
    | error err => exact ⟨fallback, hd, rfl, rfl, nofun⟩
    | ok value =>
      have hvalue := (he.sound.hasType hσ.session.suits e hv).2
      refine ⟨value, rfl, rfl, (hvalue.type_eq he.proper).symm, fun w hw => ?_⟩
      cases hw
      exact ⟨e.span, rfl⟩

theorem sustains_declareConst {span : Span} {d : ConstDecl} (h : (Stmt.const span d).Regular) :
    Sustains settings s (declareConst span d) fun s' d' ds => Adds settings s' [.const span d] [.const span d'] ds := by
  have htype : d.type.Regular := h.expr (by simp [Stmt.ownExprs])
  have hvalue : d.value.Regular := h.expr (by simp [Stmt.ownExprs])
  have hexported : d.exported.expr.Regular := h.expr (by simp [Stmt.ownExprs])
  unfold declareConst
  simp only [ite_bind]
  refine .steady rfl (upholds_typeNoteOr _ htype) fun s₁ r _ hc₁ hr => ?_
  refine .steady hc₁ (upholds_expression _ hvalue) fun s₂ e _ hc₂ he => ?_
  refine .steady hc₂ (upholds_boolAttr hexported) fun s₃ exported _ hc₃ hempty => ?_
  refine .looking (P := fun x => (x.1.Typed ∧ x.2.Typed s.Current) ∧ ∃ v, x.2.evaluate s₃.valueOrDefault? = .ok v ∧
      (x.1.value <|> x.1.fallback) = some v ∧ x.1.type = x.2.type ∧
      ∀ w, x.1.value = some w → ∃ span, x.2 = .ofValue span w) (reads_constantInfo _ _ _)
    (fun _ _ hσ hs hrun => ?_) fun info ⟨⟨hconstant, hleft⟩, v, hv, hknown, hsame, hliteral⟩ => ?_
  · subst hs
    exact ⟨((upholds_constantInfo _ _ he).run hσ hc₃ hrun).2.2, constantInfo_ok hσ (hc₃ ▸ he) hrun⟩
  refine .steady hc₃ (upholds_constantId _) fun s₄ id h₄ hc₄ hid => ?_
  refine .bind (sustains_addConstant (.const span { d with type := r.2, value := info.2, exported, id }) hconstant) ?_
  rintro s₅ - _ h₅ ⟨hconstants, rfl⟩
  refine .steady rfl (upholds_publish _ _ _ trivial) fun s₆ _ h₆ _ _ => ?_
  refine .steady rfl (upholds_declare _ _ trivial) fun s₇ _ h₇ _ _ => .pure ?_
  rw [List.append_nil]
  have hlarger {i : Int} {t : Ty} (hc : s.Current i t) : s₇.Recorded i t :=
    (h₅.trans (h₆.enlarges.trans h₇.enlarges)).current (hc₄ ▸ hc)
  refine ⟨by simp, List.forall_mem_singleton.mpr ?_, List.forall_mem_singleton.mpr ?_, by simpa using .one hid⟩
  · refine ⟨info.1, s₃.constants, v, ?_, hv, hknown, hsame, hliteral⟩
    rw [h₇.constants, h₆.constants, hconstants, h₄.constants]
    exact List.suffix_refl _
  · refine (Stmt.sound_const _ _).mpr ⟨?_, hleft.sound.mono hlarger, .of_isAbsent hempty⟩
    rcases hr with ⟨habsent, rfl⟩ | ⟨-, htyped⟩
    · exact .of_isAbsent habsent
    · exact htyped.sound.mono hlarger

end

/-- A loader that always provides a module, of whose symbols none is missing. -/
def Supplies (settings : CheckSettings) (load : Loader) : Prop :=
  ∀ s name span, Sustains settings s (load name span) fun _ r ds =>
    ds = [] ∧ ∃ m, r = some m ∧ ∀ b ∈ m.symbols, b.2.Known

section

variable {s : Session} {load : Loader}

theorem sustains_importSymbols (hload : Supplies settings load) (span : Span) (name : Text) (items : List ImportItem) :
    Sustains settings s (importSymbols load span name items) fun _ _ ds => ds = [] := by
  refine .reading (reads_requireModuleScope _ _) fun _ => .bind (hload s name span) ?_
  rintro s₁ _ _ - ⟨rfl, m, rfl, hsymbols⟩
  have note : Upholds s₁.Current (modifyDraft fun d =>
      if d.imports.any (·.1 == name) then d else { d with imports := d.imports ++ [(name, m.result)] })
      fun _ => True := by
    refine .redraft (fun d => ?_) (fun d => ?_) (fun d => ?_) fun d => ?_
    all_goals split <;> rfl
  refine .of_upholds (P := fun _ => True) (.bind note fun _ _ => ?_) fun _ _ _ _ => rfl
  split
  · exact .forM fun x hx => upholds_declare _ _ (hsymbols x (List.mem_mergeSort.mp hx))
  · exact upholds_declareItems _ hsymbols _

/-- A check whose result becomes a statement. -/
theorem sustains_some {α : Type} {ss : List Stmt} {x : Check α} {f : α → Stmt}
    (hx : Sustains settings s x fun s' a ds => Adds settings s' ss [f a] ds) :
    Sustains settings s (do return some (f (← x))) fun s' r ds => Adds settings s' ss r.toList ds := by
  refine .bind hx fun s₁ a ds _ ha => .pure ?_
  rw [List.append_nil]
  exact ha

/-- A declaration of something else than constants, or a statement without others inside. -/
theorem sustains_plain {α : Type} {ss : List Stmt} {x : Check α} {f : α → Stmt} (hf : ∀ a, (f a).constants = [])
    (hx : Upholds s.Current x fun a => (f a).Sound s.Current) :
    Sustains settings s (do return some (f (← x))) fun s' r ds => Adds settings s' ss r.toList ds :=
  sustains_some (.of_upholds hx fun _ _ hs ha => .one (hf _) (ha.mono hs.enlarges.current))

/-- A statement that stays as it is. -/
theorem sustains_leaf {ss : List Stmt} {x : Stmt} (hconstants : x.constants = []) (hx : x.Sound s.Recorded) :
    Sustains settings s (pure (some x)) fun s' r ds => Adds settings s' ss r.toList ds := .pure (.one hconstants hx)

section

variable {y : Stmt} {x : Check (Option Stmt)} (span : Span)

theorem sustains_nested (hx : Sustains settings s x fun s' r ds => Adds settings s' [y] r.toList ds) :
    Sustains settings s (nested span x) fun s' r ds => Adds settings s' [y] [r] ds := by
  refine .bind hx.collecting fun s₁ r ds _ ⟨hpending, hr⟩ => .pure ?_
  rw [List.append_nil]
  have hresult : Adds settings s₁ [y] [r.2.getD (.noOp span)] ds := by
    cases hsome : r.2 with
    | none =>
      rw [hsome] at hr
      exact hr.within (List.flatMap_singleton _ _).symm (Stmt.constants_of_leaf rfl rfl) (Stmt.sound_noOp span)
    | some t =>
      rw [hsome] at hr
      exact hr
  split
  · exact hresult
  · have hall : Adds settings s₁ [y] (r.1 ++ [r.2.getD (.noOp span)]) ds := hpending.append hresult
    exact hall.within (List.flatMap_singleton _ _).symm (Stmt.gather_block Stmt.constant_fromDeclarations _ _)
      ((Stmt.sound_block _ _).mpr hall.sound)

theorem sustains_nestedScoped (hx : Sustains settings s x fun s' r ds => Adds settings s' [y] r.toList ds) :
    Sustains settings s (nestedScoped span x) fun s' r ds => Adds settings s' [y] [r] ds := (sustains_nested span hx).inScope

theorem sustains_otherwise (other : Stmt) (hx : Sustains settings s x fun s' r ds => Adds settings s' [y] r.toList ds) :
    Sustains settings s (unlessAbsent other (nestedScoped span x)) fun s' r ds => Adds settings s' [y] [r] ds := by
  unfold unlessAbsent
  split
  · exact .pure (.one rfl Stmt.sound_absent)
  · exact sustains_nestedScoped span hx

end

theorem sustains_counted {x : Check Stmt} {y : Stmt} (name : Text) (id : Int) {t : Ty} (ht : t.Proper)
    (hx : ∀ s, Sustains settings s x fun s' r ds => Adds settings s' [y] [r] ds) :
    Sustains settings s (counted name id t x) fun s' r ds => Adds settings s' [y] [r.2] ds := by
  refine .inScope (.steady rfl (upholds_variableId _) fun s₁ id _ _ _ => ?_)
  refine .steady rfl (upholds_declareLocal _ _ ht) fun s₂ _ _ _ _ => ?_
  refine .bind (.withReader (fun _ => rfl) (hx s₂)) fun s₃ r ds _ hr => .pure ?_
  rw [List.append_nil]
  exact hr

theorem sustains_enclosed {x : Check (List Stmt)} (span : Span) {h : FnHead} {ss : List Stmt}
    (hh : ∀ e ∈ Stmt.headExprs h, e.Regular) (hx : ∀ s, Sustains settings s x fun s' r ds => Adds settings s' ss r ds) :
    Sustains settings s (enclosed span h x) fun s' r ds => Adds settings s' [.function span h ss] r.toList ds := by
  refine .steady rfl (upholds_declareFunction hh) fun s₁ r _ hc₁ hhead => .withReader (fun _ => rfl) (.inScope ?_)
  have htypes : ∀ p ∈ r.1.params, p.type.Sound s.Current := by
    intro p hp
    exact hhead.sound _ (by simp only [Stmt.headExprs]; grind)
  refine .steady hc₁ (upholds_declareParams htypes hhead.params) fun s₂ params _ hc₂ hparams => ?_
  refine .bind (hx s₂) fun s₃ body ds h₃ hbody => ?_
  have hfunction : Adds settings s₃ [.function span h ss] [Stmt.function span { r.1 with params } body] (ds ++ []) := by
    rw [List.append_nil]
    refine hbody.within (Stmt.constants_function _ _ _) (Stmt.constants_function _ _ _)
      ((Stmt.sound_iff rfl).mpr ⟨trivial, fun e he => ?_, hbody.sound⟩)
    have hsound : e.Sound s.Current := by
      rcases List.mem_append.mp he with he | he
      · rcases List.mem_append.mp he with he | he
        · exact hhead.sound e (List.mem_append_left _ (List.mem_append_left _ he))
        · obtain ⟨p, hp, rfl⟩ := List.mem_map.mp he
          exact hparams p hp
      · exact hhead.sound e (List.mem_append_right _ he)
    exact hsound.mono fun hc => h₃.current (hc₂ ▸ hc)
  dsimp only
  split
  · exact .reading (reads_checkEntryPoint _ _ _) fun _ => .pure hfunction
  · exact .pure hfunction

section

/-- The declarations of a branch. -/
theorem constants_branch (span : Span) (isConst : Bool) (arms : List (Expr × Stmt)) (other : Stmt) :
    (Stmt.branch span isConst arms other).constants = (arms.map (·.2) ++ [other]).flatMap Stmt.constants := by
  rw [List.flatMap_append, List.flatMap_singleton]
  exact Stmt.gather_branch Stmt.constant_fromDeclarations _ _ _ _

/-- What remains of the declarations of a branch. -/
theorem Adds.branch {s : Session} {arms arms' : List (Expr × Stmt)} {other other' x : Stmt} {ds es : List Stmt}
    (harms : Adds settings s (arms.map (·.2)) (arms'.map (·.2)) ds) (hother : Adds settings s [other] [other'] es)
    (hdecides : ∀ a ∈ arms', a.1.Decides s.Recorded) {span : Span} {isConst : Bool}
    (hx : x.constants = (arms'.map (·.2)).flatMap Stmt.constants ++ other'.constants)
    (hsound : (Stmt.branch span isConst arms' other').Sound s.Recorded → x.Sound s.Recorded) :
    Adds settings s [.branch span isConst arms other] [x] (ds ++ (es ++ [])) := by
  rw [List.append_nil]
  refine (harms.append hother).within (constants_branch _ _ _ _) ?_ (hsound ?_)
  · rw [hx, List.flatMap_append, List.flatMap_singleton]
  · exact (Stmt.sound_branch _ _ _ _).mpr
      ⟨fun a ha => ⟨hdecides a ha, harms.sound a.2 (List.mem_map_of_mem ha)⟩, hother.sound_one⟩

end

mutual

/-- What a statement becomes is sound, with the constants that it declares. -/
theorem sustains_statement (hload : Supplies settings load) (x : Stmt) (h : x.Regular) (s : Session) :
    Sustains settings s (statement load x) fun s' r ds => Adds settings s' [x] r.toList ds := by
  cases x with
  | absent => exact .reading (reads_requireFunction _) fun _ => .reject
  | importFrom span name items =>
    refine .bind (sustains_importSymbols hload span name items) ?_
    rintro s₁ _ _ - rfl
    exact .pure (.one (Stmt.gather_eq rfl) (Stmt.sound_importFrom span name items))
  | option span d => exact sustains_some (sustains_declareOption h)
  | const span d => exact sustains_some (sustains_declareConst h)
  | «alias» span d => exact sustains_plain (fun _ => Stmt.gather_eq rfl) (upholds_declareAlias h)
  | struct span d => exact sustains_plain (fun _ => Stmt.gather_eq rfl) (upholds_declareStruct h)
  | external span set vars =>
    exact sustains_plain (f := fun r : Attr UInt32 × List External => .external span r.1 r.2)
      (fun _ => Stmt.gather_eq rfl) (upholds_declareExternals h)
  | function span head body =>
    exact sustains_enclosed span (fun e he => h.expr he) (sustains_statements hload body fun b hb => h.child hb)
  | conditional span c body =>
    have hbody : body.Regular := h.child (by simp [Stmt.children])
    refine .steady rfl (upholds_expression c (h.expr (by simp [Stmt.ownExprs]))) fun s₁ cond _ hc₁ hcond => ?_
    refine .steady hc₁ (upholds_constantCondition hcond) fun s₂ known _ hc₂ hdecides => ?_
    have hparts (c : Expr) (b : Stmt) : (Stmt.conditional span c b).constants = [b].flatMap Stmt.constants := by
      rw [List.flatMap_singleton]
      exact Stmt.gather_conditional Stmt.constant_fromDeclarations _ _ _
    have hsame : ([body].flatMap Stmt.constants).Sublist ([Stmt.conditional span c body].flatMap Stmt.constants) := by
      rw [List.flatMap_singleton _ (Stmt.conditional span c body), hparts]
    split
    · exact (sustains_statement hload body hbody s₂).post fun _ _ _ _ hr => hr.among hsame
    · exact .pure (.nothing nofun nofun)
    · refine .bind (.withReader (fun _ => rfl) (sustains_statement hload body hbody s₂)) fun s₃ r ds h₃ hr => .pure ?_
      rw [List.append_nil]
      cases r with
      | none => exact hr.among hsame
      | some t =>
        refine hr.within (hparts c body) (hparts cond t) ((Stmt.sound_conditional _ _ _).mpr ⟨?_, hr.sound_one⟩)
        exact hdecides.mono fun hc => h₃.current (hc₂ ▸ hc)
  | multi span body =>
    have hbody : ∀ b ∈ body, b.Regular := fun b hb => h.child (by simp [Stmt.children, hb])
    refine sustains_some ((sustains_statements hload body hbody s).post fun s' rs ds _ hrs => ?_)
    exact hrs.within (Stmt.gather_multi Stmt.constant_fromDeclarations _ _)
      (Stmt.gather_multi Stmt.constant_fromDeclarations _ _) ((Stmt.sound_multi _ _).mpr hrs.sound)
  | noOp span => exact sustains_leaf (Stmt.constants_of_leaf rfl rfl) (Stmt.sound_noOp span)
  | «scoped» span body =>
    have hbody : body.Regular := h.child (by simp [Stmt.children])
    refine .reading (reads_requireFunction span) fun _ => sustains_some ?_
    refine (sustains_nestedScoped _ (sustains_statement hload body hbody s)).post fun s' r ds _ hr => ?_
    have hparts (b : Stmt) : (Stmt.scoped span b).constants = [b].flatMap Stmt.constants := by
      rw [List.flatMap_singleton]
      exact Stmt.gather_scoped Stmt.constant_fromDeclarations _ _
    exact hr.within (hparts body) (hparts r) ((Stmt.sound_scoped _ _).mpr hr.sound_one)
  | expr span e =>
    have he : e.Regular := h.expr (by simp [Stmt.ownExprs])
    refine .reading (reads_requireFunction span) fun _ => ?_
    exact sustains_plain (fun _ => Stmt.constants_of_leaf rfl rfl)
      ((upholds_expression e he).post fun _ hr => (Stmt.sound_expr span _).mpr hr.sound)
  | letVar span d =>
    refine .reading (reads_requireFunction span) fun _ => ?_
    exact sustains_plain (fun _ => Stmt.constants_of_leaf rfl rfl) (upholds_declareVariable h)
  | branch span isConst arms other =>
    have hconds : ∀ a ∈ arms, a.1.Regular := fun a ha => h.expr (List.mem_map_of_mem ha)
    have hbodies : ∀ a ∈ arms, a.2.Regular := fun a ha => h.child (List.mem_append_left _ (List.mem_map_of_mem ha))
    have hother : other.Regular := h.child (List.mem_append_right _ (List.mem_singleton.mpr rfl))
    have hotherwise (s : Session) : Sustains settings s (unlessAbsent other (nestedScoped other.span (statement load other)))
        fun s' r ds => Adds settings s' [other] [r] ds :=
      sustains_otherwise other.span other (sustains_statement hload other hother s)
    cases isConst with
    | false =>
      refine .reading (reads_requireFunction span) fun _ => ?_
      refine .bind (sustains_branchArms hload arms hconds hbodies s) fun s₁ arms' ds _ ⟨hdecides, harms⟩ => ?_
      refine .bind (hotherwise s₁) fun s₂ other' es h₂ hother' => .reading .read fun site => ?_
      have hdecided : ∀ a ∈ arms', a.1.Decides s₂.Recorded := fun a ha => (hdecides a ha).mono h₂.recorded
      split
      · exact .pure ((harms.mono h₂).branch hother' hdecided
          (Stmt.gather_splitBranch Stmt.constant_fromDeclarations span false arms' other') Stmt.sound_splitBranch)
      · exact .pure ((harms.mono h₂).branch hother' hdecided
          (Stmt.gather_branch Stmt.constant_fromDeclarations span false arms' other') id)
    | true =>
      refine .reading (reads_requireFunction span) fun _ => ?_
      refine .steady rfl (upholds_constantConditions hconds) fun s₁ conds _ hc₁ ⟨hlength, hdecide⟩ => ?_
      have hparts := constants_branch span true arms other
      split
      · split
        · refine (sustains_selectedBody hload _ arms hbodies s₁).post fun _ _ _ _ hr => hr.among ?_
          rw [List.flatMap_singleton, hparts, List.flatMap_append]
          exact List.sublist_append_left _ _
        split
        · exact .pure (.nothing nofun nofun)
        · refine (sustains_some (sustains_nestedScoped _ (sustains_statement hload other hother s₁))).post
            fun _ _ _ _ hr => hr.among ?_
          rw [List.flatMap_singleton _ (Stmt.branch span true arms other), hparts, List.flatMap_append]
          exact List.sublist_append_right _ _
      · refine .withReader (fun _ => rfl) ?_
        refine .bind (sustains_armBodies hload arms hbodies s₁) fun s₂ bodies ds h₂ ⟨hcount, hbs⟩ => ?_
        refine .bind (hotherwise s₂) fun s₃ other' es h₃ hother' => .pure ?_
        have hmap : ((conds.map (·.1)).zip bodies).map (·.2) = bodies := List.map_snd_zip (by simp [hlength, hcount])
        rw [← hmap] at hbs
        refine (hbs.mono h₃).branch hother' (fun a ha => ?_)
          (Stmt.gather_branch Stmt.constant_fromDeclarations span true _ other') id
        obtain ⟨c, hc, heq⟩ := List.mem_map.mp (List.of_mem_zip ha).1
        have hdecided : a.1.Decides s.Current := heq ▸ hdecide c hc
        exact hdecided.mono fun hcur => (h₂.trans h₃).current (hc₁ ▸ hcur)
  | loop span c u body =>
    have hbody : body.Regular := h.child (by simp [Stmt.children])
    have hcheck : Upholds s.Current (do
        let cond ← expression c
        requireBool "while" cond
        pure cond) fun cond => cond.Decides s.Current := by
      refine .bind (upholds_expression c (h.expr (by simp [Stmt.ownExprs]))) fun cond hcond => ?_
      exact .bind (upholds_requireBool _ hcond) fun _ hbool => .pure ⟨hbool, hcond.sound⟩
    refine .reading (reads_requireFunction span) fun _ => ?_
    refine .steady rfl (.withReader hcheck) fun s₁ cond _ hc₁ hdecides => ?_
    refine .steady hc₁ (upholds_choice _ _) fun s₂ unroll _ hc₂ hunroll => sustains_some ?_
    refine .withReader (fun _ => rfl) ((sustains_nestedScoped _ (sustains_statement hload body hbody s₂)).post ?_)
    intro s₃ r ds h₃ hr
    have hparts (c : Expr) (u : Attr Unroll) (b : Stmt) : (Stmt.loop span c u b).constants = [b].flatMap Stmt.constants := by
      rw [List.flatMap_singleton]
      exact Stmt.gather_loop Stmt.constant_fromDeclarations _ _ _ _
    refine hr.within (hparts c u body) (hparts cond unroll r)
      ((Stmt.sound_loop _ _ _ _).mpr ⟨.of_isAbsent hunroll, ?_, hr.sound_one⟩)
    exact hdecides.mono fun hcur => h₃.current (hc₂ ▸ hcur)
  | forRange span head body =>
    have hbody : body.Regular := h.child (by simp [Stmt.children])
    have hstart : head.start.Regular := h.expr (by simp [Stmt.ownExprs])
    have hstop : head.stop.Regular := h.expr (by simp [Stmt.ownExprs])
    have hstep : head.step.Regular := h.expr (by simp [Stmt.ownExprs])
    refine .reading (reads_requireFunction span) fun _ => ?_
    refine .steady rfl (upholds_rangeHead hstart hstop hstep) fun s₁ r _ hc₁ hr => ?_
    obtain ⟨r, t⟩ := r
    obtain ⟨p, rfl, hcounted⟩ := hr
    have hproper : (Ty.prim p).Proper := by
      rcases hcounted.integer with rfl | rfl <;> show _ ∈ Primitive.named <;> decide
    refine .bind (sustains_counted _ _ hproper fun s => sustains_nested _ (sustains_statement hload body hbody s)) ?_
    intro s₂ b ds h₂ hb
    have hnumbered : Stmt.Counted s.Current { r with id := b.1 } p := ⟨hcounted.integer, hcounted.start, hcounted.stop,
      hcounted.step, hcounted.stopType, hcounted.stepType, hcounted.unroll⟩
    have hlater : Stmt.Counted s₂.Recorded { r with id := b.1 } p := hnumbered.mono fun hcur => h₂.current (hc₁ ▸ hcur)
    refine .bind (P := fun s' x es => es = [] ∧ Adds settings s' [body] [x] ds) ?_ ?_
    · refine .of_upholds (upholds_rangeLoop span hlater hb.sound_one) fun s₃ x h₃ ⟨hsound, hsame⟩ => ⟨rfl, ?_⟩
      refine (hb.mono h₃.enlarges).within (List.flatMap_singleton _ _).symm ?_ (hsound.mono h₃.enlarges.recorded)
      rw [List.flatMap_singleton]
      exact hsame
    · rintro s₃ x _ - ⟨rfl, hx⟩
      refine .pure ?_
      rw [List.append_nil, List.append_nil]
      have hparts : (Stmt.forRange span head body).constants = body.constants :=
        Stmt.gather_forRange Stmt.constant_fromDeclarations _ _ _
      refine hx.among ?_
      rw [List.flatMap_singleton, List.flatMap_singleton, hparts]
  | forEach span head body =>
    have hbody : body.Regular := h.child (by simp [Stmt.children])
    have harray : head.array.Regular := h.expr (by simp [Stmt.ownExprs])
    refine .reading (reads_requireFunction span) fun _ => ?_
    refine .steady rfl (upholds_eachHead harray) fun s₁ r _ hc₁ ⟨htyped, ⟨n, htype⟩, hunroll⟩ => ?_
    have hproper : r.2.Proper := by
      have harrayProper := htyped.proper
      rw [htype] at harrayProper
      exact harrayProper
    refine .bind (sustains_counted _ _ hproper fun s => sustains_nested _ (sustains_statement hload body hbody s)) ?_
    intro s₂ b ds h₂ hb
    have hlarger {i : Int} {t : Ty} (hcur : s.Current i t) : s₂.Recorded i t := h₂.current (hc₁ ▸ hcur)
    have hloop := upholds_eachLoop (Γ := s₂.Current) (h := { r.1 with id := b.1 }) span (htyped.mono hlarger) htype
      (hunroll.mono hlarger) hb.sound_one
    refine .bind (P := fun s' x es => es = [] ∧ Adds settings s' [body] [x] ds) ?_ ?_
    · refine .of_upholds hloop fun s₃ x h₃ ⟨hsound, hsame⟩ => ⟨rfl, ?_⟩
      refine (hb.mono h₃.enlarges).within (List.flatMap_singleton _ _).symm ?_ (hsound.mono h₃.enlarges.recorded)
      rw [List.flatMap_singleton]
      exact hsame
    · rintro s₃ x _ - ⟨rfl, hx⟩
      refine .pure ?_
      rw [List.append_nil, List.append_nil]
      have hparts : (Stmt.forEach span head body).constants = body.constants :=
        Stmt.gather_forEach Stmt.constant_fromDeclarations _ _ _
      refine hx.among ?_
      rw [List.flatMap_singleton, List.flatMap_singleton, hparts]
  | returnWith span e =>
    have he : e.Regular := h.expr (by simp [Stmt.ownExprs])
    refine .reading (reads_requireFunction span) fun f => ?_
    exact sustains_plain (fun _ => Stmt.constants_of_leaf rfl rfl)
      ((upholds_returned span f he).post fun _ hr => (Stmt.sound_returnWith _ _).mpr hr)
  | discard span =>
    exact .reading (reads_requireFunction span) fun _ =>
      sustains_leaf (Stmt.constants_of_leaf rfl rfl) (Stmt.sound_discard span)
  | breakLoop span =>
    exact .reading (reads_requireFunction span) fun _ => .reading (reads_requireLoop span _) fun _ =>
      sustains_leaf (Stmt.constants_of_leaf rfl rfl) (Stmt.sound_breakLoop span)
  | continueLoop span =>
    exact .reading (reads_requireFunction span) fun _ => .reading (reads_requireLoop span _) fun _ =>
      sustains_leaf (Stmt.constants_of_leaf rfl rfl) (Stmt.sound_continueLoop span)

theorem sustains_statements (hload : Supplies settings load) (xs : List Stmt) (h : ∀ x ∈ xs, x.Regular) (s : Session) :
    Sustains settings s (statements load xs) fun s' rs ds => Adds settings s' xs rs ds := by
  cases xs with
  | nil => exact .pure (.nothing nofun nofun)
  | cons x xs =>
    rw [List.forall_mem_cons] at h
    refine .bind (sustains_statement hload x h.1 s).collecting fun s₁ r ds _ ⟨hpending, hr⟩ => ?_
    refine .bind (sustains_statements hload xs h.2 s₁) fun s₂ rest es h₂ hrest => .pure ?_
    rw [List.append_nil]
    exact ((hpending.append hr).mono h₂).append hrest

theorem sustains_branchArms (hload : Supplies settings load) (arms : List (Expr × Stmt))
    (hconds : ∀ a ∈ arms, a.1.Regular) (hbodies : ∀ a ∈ arms, a.2.Regular) (s : Session) :
    Sustains settings s (branchArms load arms) fun s' rs ds =>
      (∀ r ∈ rs, r.1.Decides s'.Recorded) ∧ Adds settings s' (arms.map (·.2)) (rs.map (·.2)) ds := by
  match arms with
  | [] => exact .pure ⟨nofun, .nothing nofun nofun⟩
  | (c, x) :: arms =>
    rw [List.forall_mem_cons] at hconds hbodies
    refine .steady rfl (upholds_expression c hconds.1) fun s₁ cond _ hc₁ hcond => ?_
    refine .steady hc₁ (upholds_requireBool _ hcond) fun s₂ _ _ hc₂ hbool => ?_
    refine .bind (sustains_nestedScoped _ (sustains_statement hload x hbodies.1 s₂)) fun s₃ body ds h₃ hbody => ?_
    refine .bind (sustains_branchArms hload arms hconds.2 hbodies.2 s₃) fun s₄ rs es h₄ ⟨hdecides, hrs⟩ => .pure ?_
    rw [List.append_nil]
    have hdecided : cond.Decides s.Current := ⟨hbool, hcond.sound⟩
    refine ⟨List.forall_mem_cons.mpr ⟨hdecided.mono fun hcur => ?_, hdecides⟩, (hbody.mono h₄).append hrs⟩
    exact (h₃.trans h₄).current (hc₂ ▸ hcur)

theorem sustains_armBodies (hload : Supplies settings load) (arms : List (Expr × Stmt)) (h : ∀ a ∈ arms, a.2.Regular)
    (s : Session) :
    Sustains settings s (armBodies load arms) fun s' rs ds =>
      rs.length = arms.length ∧ Adds settings s' (arms.map (·.2)) rs ds := by
  match arms with
  | [] => exact .pure ⟨rfl, .nothing nofun nofun⟩
  | (c, x) :: arms =>
    rw [List.forall_mem_cons] at h
    refine .bind (sustains_nestedScoped _ (sustains_statement hload x h.1 s)) fun s₁ body ds _ hbody => ?_
    refine .bind (sustains_armBodies hload arms h.2 s₁) fun s₂ rs es h₂ ⟨hlength, hrs⟩ => .pure ?_
    rw [List.append_nil]
    exact ⟨congrArg Nat.succ hlength, (hbody.mono h₂).append hrs⟩

theorem sustains_selectedBody (hload : Supplies settings load) (n : Nat) (arms : List (Expr × Stmt))
    (h : ∀ a ∈ arms, a.2.Regular) (s : Session) :
    Sustains settings s (selectedBody load n arms) fun s' r ds => Adds settings s' (arms.map (·.2)) r.toList ds := by
  match n, arms with
  | 0, [] | n + 1, [] => exact .pure (.nothing nofun nofun)
  | 0, (c, x) :: arms =>
    rw [List.forall_mem_cons] at h
    refine (sustains_some (sustains_nestedScoped _ (sustains_statement hload x h.1 s))).post
      fun _ _ _ _ hr => hr.among ?_
    rw [List.flatMap_singleton, List.map_cons, List.flatMap_cons]
    exact List.sublist_append_left _ _
  | n + 1, (c, x) :: arms =>
    rw [List.forall_mem_cons] at h
    refine (sustains_selectedBody hload n arms h.2 s).post fun _ _ _ _ hr => hr.among ?_
    rw [List.map_cons, List.flatMap_cons]
    exact List.sublist_append_right _ _

end

end

section

variable {s : Session} {load : Loader} {m : Module}

theorem sustains_body (hload : Supplies settings load) (hm : m.rootStmt.Regular) :
    Sustains settings s (body load m) fun s' r ds => Adds settings s' [m.rootStmt] [r.rootStmt] ds := by
  have hbody : ∀ x ∈ (m.root.getD {}).body, x.Regular := by
    intro x hx
    cases hroot : m.root with
    | none =>
      rw [hroot] at hx
      cases hx
    | some b =>
      rw [hroot] at hx
      rw [Module.rootStmt, hroot] at hm
      exact hm.child hx
  have hparts : m.rootStmt.constants = (m.root.getD {}).body.flatMap Stmt.constants := by
    cases hroot : m.root with
    | none =>
      rw [Module.rootStmt, hroot]
      rfl
    | some b =>
      rw [Module.rootStmt, hroot]
      exact Stmt.gather_multi Stmt.constant_fromDeclarations _ _
  unfold body
  simp only [reject_bind]
  split
  · exact .reject
  refine .bind (.inScope (sustains_statements hload _ hbody s)) fun s₁ rs ds _ hrs => .reading .getDraft fun d => .pure ?_
  rw [List.append_nil]
  exact hrs.within hparts (Stmt.gather_multi Stmt.constant_fromDeclarations _ _) ((Stmt.sound_multi _ _).mpr hrs.sound)

/-- None of the modules that are imported is missing, and what is to stand before a statement imports none. -/
theorem State.Typed.under {σ : State} (h : σ.Typed) : σ.Under σ.session.inProgress σ.session.previous := by
  refine ⟨rfl, rfl, h.session.missing, fun x hx => ?_⟩
  obtain ⟨⟨span, d, rfl⟩, -⟩ := h.pending x hx
  exact Stmt.imports_letVar span d

theorem Finds.regular {settings : CheckSettings} {previous : List (Text × Module)} {name : Text}
    (hsettings : settings.Regular) (hprevious : ∀ x ∈ previous, x.2.rootStmt.Regular)
    (h : Finds settings previous name m) : m.rootStmt.Regular := by
  rcases h with h | ⟨-, r, hr, hfind⟩
  · exact hprevious _ (mem_of_lookup h)
  · exact hsettings.found r hr name m hfind

theorem Session.finishedConstants_complete (s : Session) (name : Text) (e : Exported) :
    (s.complete name e).finishedConstants = s.finishedConstants ++ e.result.rootStmt.constants := by
  rw [finishedConstants, complete, List.flatMap_append, List.flatMap_singleton, finishedConstants]

/-- The declarations of constants of a module that is done are those of such modules from then on. -/
theorem Session.Enlarges.complete {s s' : Session} {name : Text} {e : Exported}
    (h : (s.enter name).Enlarges e.result.rootStmt.constants s') : s.Enlarges [] (s'.complete name e) := by
  refine ⟨h.older, h.previous, fun id => ?_⟩
  have hcount : s'.uses id + declared s.finishedConstants id =
    s.uses id + declared e.result.rootStmt.constants id + declared s'.finishedConstants id := h.counts id
  have hsame : (s'.complete name e).uses id = s'.uses id := rfl
  have hnone : declared [] id = 0 := rfl
  rw [finishedConstants_complete, declared_append, hsame, hnone]
  omega

/-- A module that is done joins those that are. -/
theorem State.Upheld.complete {σ done : State} {name : Text} {r : Module} {ds : List Stmt} (hσ : σ.Upheld settings)
    (hdone : done.Upheld settings) (hlarger : (σ.session.enter name).Enlarges ds done.session)
    (hm : Finds settings σ.session.previous name m) (hr : Adds settings done.session [m.rootStmt] [r.rootStmt] ds) :
    State.Upheld settings { σ with session := done.session.complete name ⟨r, done.draft.exports⟩ } := by
  have htyped := hσ.typed
  have hsession := hdone.typed.session
  have hds : r.rootStmt.constants = ds := (List.flatMap_singleton _ _).symm.trans hr.constants
  have hafter : done.session.Enlarges [] { done.session with inProgress := done.session.inProgress.erase name } :=
    Session.Steady.enlarges ⟨rfl, rfl, rfl⟩
  refine ⟨⟨?_, htyped.scopes, htyped.exports, htyped.wildcard, fun x hx => ?_⟩, ?_, ?_⟩
  · refine { hsession with finished := List.forall_mem_append.mpr ⟨hsession.finished, ?_⟩ }
    exact List.forall_mem_singleton.mpr ⟨hr.sound_one, hdone.typed.exports⟩
  · obtain ⟨hvariable, hsound⟩ := htyped.pending x hx
    exact ⟨hvariable, hsound.mono fun hrecorded => hlarger.recorded hrecorded⟩
  · dsimp only
    rw [Session.finishedConstants_complete]
    refine List.forall_mem_append.mpr ⟨fun d hd => ?_, fun d hd => ?_⟩
    · exact (hdone.entered d hd).mono hafter
    · exact (hr.entered d (hds ▸ hd)).mono hafter
  · dsimp only
    refine List.forall_mem_append.mpr ⟨hdone.numbers, List.forall_mem_singleton.mpr ⟨m, ?_, ?_⟩⟩
    · exact hlarger.previous.symm ▸ hm
    · have hnumbers := hr.numbers
      rw [List.flatMap_singleton, ← hds] at hnumbers
      exact hnumbers

theorem supplies_importing {inner : Loader} (hinner : Supplies settings inner) : Supplies settings (importing inner) := by
  refine fun s name span => ⟨fun {site σ r σ'} hsettings hsite hσ hs h => ?_⟩
  subst hs
  have hunder := hσ.typed.under
  cases hfinished : σ.session.finished.lookup name with
  | some e =>
    rw [importing_again _ hunder hfinished] at h
    cases h
    exact ⟨hσ, [], .refl _, rfl, e, rfl, (hσ.typed.session.finished _ (mem_of_lookup hfinished)).2⟩
  | none =>
    by_cases hname : name ∈ σ.session.inProgress
    · rw [importing_cyclic _ hunder hfinished hname] at h
      exact (reject_ok.mp h).elim
    rw [importing_first _ hunder (hsite ▸ hsettings.strict) hfinished hname] at h
    obtain ⟨found, σ₁, hfind, h⟩ := bind_ok.mp h
    obtain rfl := (reads_find name).run hfind
    cases found with
    | error reason => exact (reject_ok.mp h).elim
    | ok m =>
      obtain ⟨e, σ₂, hseparately, hpure⟩ := bind_ok.mp h
      obtain ⟨rfl, rfl⟩ := pure_ok.mp hpure
      have hfinds : Finds settings σ₁.session.previous name m := hsite ▸ find_finds hfind
      have hm : m.rootStmt.Regular := hfinds.regular hsettings hσ.typed.session.previous
      obtain ⟨r, done, hrun, rfl, rfl⟩ := separately_ok hseparately
      have hsame : ({ settings := site.settings } : Site).settings = settings := hsite
      obtain ⟨hdone, ds, hlarger, hr⟩ := (sustains_body hinner hm).run hsettings hsame (hσ.apart name) rfl hrun
      have hds : r.rootStmt.constants = ds := (List.flatMap_singleton _ _).symm.trans hr.constants
      exact ⟨hσ.complete hdone hlarger hfinds hr, [], .complete (hds ▸ hlarger), rfl, _, rfl, hdone.typed.exports⟩

theorem supplies_loader (depth : Nat) : Supplies settings (loader depth) := by
  induction depth with
  | zero => exact fun _ _ _ => .reject
  | succ depth ih => exact supplies_importing ih

end

end Check

end Shading
