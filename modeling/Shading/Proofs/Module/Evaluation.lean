import Shading.Proofs.Module.Constants
import Shading.Proofs.Module.Leaves

/-! Evaluation keeps to types: of expressions while a module is checked, and of those in the result. -/
namespace Shading

/-- Is each value that an expression has of the type of the expression, whatever values of their types constants have? -/
def Expr.KeepsType (Γ : Int → Ty → Prop) (e : Expr) : Prop :=
  ∀ lookup v, Suits Γ lookup → e.evaluate lookup = .ok v → v.type = e.type

/-- The conditions of a statement. -/
def Stmt.conditions : Stmt → List Expr
  | .branch _ _ arms _ => arms.map (·.1)
  | .conditional _ c _ => [c]
  | .loop _ c _ _ => [c]
  | _ => []

theorem Expr.Sound.keepsType {Γ : Int → Ty → Prop} {e : Expr} (h : e.Sound Γ) : e.KeepsType Γ := by
  intro lookup v hlookup hv
  obtain ⟨hproper, hvalue⟩ := h.hasType hlookup e hv
  exact hvalue.type_eq hproper

theorem Ty.eq_bool_of_isBool {t : Ty} (h : t.isBool) : t = .prim .bool := by
  unfold isBool at h
  exact eq_of_isPrim h

/-- Only booleans are of the type of booleans. -/
theorem Value.HasType.bool {v : Value} (h : v.HasType (.prim .bool)) : ∃ b, v = .bool b := by
  cases v with
  | bool b => exact ⟨b, rfl⟩
  | matrix cols => cases cols <;> cases h
  | _ => cases h

namespace Check

/-- The states in which expressions are checked while a module is: those that expressions, statements and declarations
lead to, at the start of a scope, where declarations that have to stand before a statement are collected, and at the
start of an imported module. -/
inductive Reached (settings : CheckSettings) (m : Module) : State → Prop
  | start : Reached settings m { session := m.opened }
  | enter {σ : State} : Reached settings m σ → Reached settings m σ.enter
  | aside {σ : State} : Reached settings m σ → Reached settings m (σ.withPending [])
  | apart {σ : State} (name : Text) : Reached settings m σ → Reached settings m { session := σ.session.enter name }
  | expression {σ σ' : State} {site : Site} {e e' : Expr} : Reached settings m σ → e.Regular →
      expression e site σ = .ok (e', σ') → Reached settings m σ'
  | statement {σ σ' : State} {site : Site} {depth : Nat} {x : Stmt} {r : Option Stmt} : Reached settings m σ →
      site.settings = settings → x.Regular → statement (loader depth) x site σ = .ok (r, σ') → Reached settings m σ'
  | resource {σ σ' : State} {site : Site} {set : Attr UInt32} {v v' : External} : Reached settings m σ →
      (∀ e ∈ Stmt.externalExprs v, e.Regular) → declareResource set v site σ = .ok (v', σ') → Reached settings m σ'
  | head {σ σ' : State} {site : Site} {span : Span} {h h' : FnHead} {f : Function} : Reached settings m σ →
      (∀ e ∈ Stmt.headExprs h, e.Regular) → declareFunction span h site σ = .ok ((h', f), σ') → Reached settings m σ'
  | params {σ σ' : State} {site : Site} {ps ps' : List FnParam} {ts : List Ty} : Reached settings m σ →
      (∀ t ∈ ts, t.Proper) → declareParams ps ts site σ = .ok (ps', σ') → Reached settings m σ'
  | counter {σ σ' : State} {site : Site} {name : Text} {id : Int} {t : Ty} {new : Bool} : Reached settings m σ →
      t.Proper → (variableId id >>= fun id => declareLocal name id t) site σ = .ok (new, σ') → Reached settings m σ'

variable {settings : CheckSettings} {m : Module}

theorem State.Upheld.after {α : Type} {x : Check α} {P : α → Prop} {site : Site} {σ σ' : State}
    {a : α} (h : σ.Upheld settings) (hx : Upholds σ.session.Current x P) (hrun : x site σ = .ok (a, σ')) :
    σ'.Upheld settings ∧ σ'.session.Current = σ.session.Current ∧ P a := by
  obtain ⟨htyped, hsteady, ha⟩ := hx.run h.typed rfl hrun
  exact ⟨h.steady htyped hsteady, hsteady.current, ha⟩

/-- What a condition is known to be is the value that it has, if that is a boolean. -/
theorem known_of_constantCondition {site : Site} {σ σ' : State} {c : Expr} {known : Option Bool} {b : Bool}
    (hc : c.type.isKnown) (h : constantCondition c site σ = .ok (known, σ'))
    (hb : c.evaluate σ.session.value? = .ok (.bool b)) : known = some b := by
  unfold constantCondition at h
  rw [hc] at h
  simp only [reject_bind] at h
  split at h
  · rename_i hfalse
    cases hfalse
  split at h
  · exact (reject_ok.mp h).elim
  obtain ⟨fallback, σ₁, hfallback, hrest⟩ := bind_ok.mp h
  obtain ⟨-, rfl⟩ := evaluateWithDefaults_ok.mp hfallback
  split at hrest
  · exact (reject_ok.mp hrest).elim
  obtain ⟨value, σ₂, hvalue, hrest⟩ := bind_ok.mp hrest
  obtain ⟨rfl, rfl⟩ := evaluate_ok.mp hvalue
  rw [hb] at hrest
  exact (pure_ok.mp hrest).1

/-- In every state of a check, what has been declared is of proper types, and constants have values of theirs. -/
theorem Reached.upheld (hm : m.Regular) (hsettings : settings.Regular) {σ : State} (h : Reached settings m σ) :
    σ.Upheld settings := by
  induction h with
  | start => exact upheld_opened _ hm
  | enter _ ih => exact ih.enter
  | aside _ ih => exact ih.aside
  | apart name _ ih => exact ih.apart name
  | expression _ he hrun ih => exact (ih.after (upholds_expression _ he) hrun).1
  | statement _ hsite hx hrun ih =>
    obtain ⟨hσ', -⟩ := (sustains_statement (supplies_loader _) _ hx _).run hsettings hsite ih rfl hrun
    exact hσ'
  | resource _ hv hrun ih => exact (ih.after (upholds_declareResource _ hv) hrun).1
  | head _ hh hrun ih => exact (ih.after (upholds_declareFunction hh) hrun).1
  | params _ hts hrun ih =>
    exact (ih.after (upholds_declareParams (P := fun _ => True) (fun _ _ => trivial) hts) hrun).1
  | counter _ ht hrun ih =>
    exact (ih.after (.bind (upholds_variableId _) fun _ _ => upholds_declareLocal _ _ ht) hrun).1

end Check

/-- The nodes that a walk reaches from a node on. -/
def Node.nodes : Node → List Node
  | .expr e => e.nodes
  | .stmt s => s.nodes

theorem Expr.nodes_subset {e : Expr} {n : Node} (h : n ∈ e.nodes) : n.nodes ⊆ e.nodes := by
  induction e using induction_children with
  | h e ih =>
    cases habsent : e.isAbsent with
    | true =>
      cases e with
      | absent => cases h
      | _ => cases habsent
    | false =>
      rw [nodes_eq habsent] at h ⊢
      rcases List.mem_cons.mp h with rfl | h
      · exact fun k hk => (nodes_eq habsent) ▸ hk
      · obtain ⟨c, hc, hn⟩ := List.mem_flatMap.mp h
        exact fun k hk => List.mem_cons_of_mem _ (List.mem_flatMap.mpr ⟨c, hc, ih c hc hn hk⟩)

theorem Stmt.nodes_subset {x : Stmt} {n : Node} (h : n ∈ x.nodes) : n.nodes ⊆ x.nodes := by
  induction x using induction_children with
  | h x ih =>
    cases habsent : x.isAbsent with
    | true =>
      cases x with
      | absent => cases h
      | _ => cases habsent
    | false =>
      intro k hk
      rcases (mem_nodes habsent).mp h with rfl | ⟨e, he, hn⟩ | ⟨c, hc, hn⟩
      · exact hk
      · exact (mem_nodes habsent).mpr (.inr (.inl ⟨e, he, Expr.nodes_subset hn hk⟩))
      · exact (mem_nodes habsent).mpr (.inr (.inr ⟨c, hc, ih c hc hn hk⟩))

theorem Stmt.Sound.stmt {Γ : Int → Ty → Prop} {x y : Stmt} (h : x.Sound Γ) (hy : .stmt y ∈ x.nodes) : y.Sound Γ :=
  fun n hn => h n (nodes_subset hy hn)

theorem Stmt.Sound.expr {Γ : Int → Ty → Prop} {x : Stmt} (h : x.Sound Γ) {e : Expr} (he : .expr e ∈ x.nodes) :
    e.Sound Γ := fun n hn => h n (nodes_subset he hn)

/-- All conditions of a sound statement are booleans. -/
theorem Stmt.Sound.decides {Γ : Int → Ty → Prop} {x y : Stmt} (h : x.Sound Γ) (hy : .stmt y ∈ x.nodes) {c : Expr}
    (hc : c ∈ y.conditions) : c.Decides Γ := by
  have hsound := h.stmt hy
  cases y with
  | branch span isConst arms other =>
    obtain ⟨a, ha, rfl⟩ := List.mem_map.mp hc
    exact (((sound_branch _ _ _ _).mp hsound).1 a ha).1
  | conditional span cond body =>
    obtain rfl := List.mem_singleton.mp hc
    exact ((sound_conditional _ _ _).mp hsound).1
  | loop span cond unroll body =>
    obtain rfl := List.mem_singleton.mp hc
    exact ((sound_loop _ _ _ _).mp hsound).2.1
  | _ => cases hc

/-- A value that a condition has is a boolean, and it is what decides. -/
theorem Expr.Decides.condition {Γ : Int → Ty → Prop} {c : Expr} (h : c.Decides Γ) {table : Constants}
    (htable : Expr.Suits Γ table.get?) {v : Value} (hv : c.evaluate table.get? = .ok v) :
    ∃ b, v = .bool b ∧ table.condition c = .ok b := by
  have hvalue := (h.sound.hasType htable c hv).2
  rw [Ty.eq_bool_of_isBool h.bool] at hvalue
  obtain ⟨b, rfl⟩ := hvalue.bool
  exact ⟨b, rfl, by rw [Constants.condition, hv]⟩

section

variable {given : OptionValues} {s : Check.Session}

theorem Expr.Suits.set {Γ : Int → Ty → Prop} {table : Constants} (h : Suits Γ table.get?)
    (hone : ∀ {id t u}, Γ id t → Γ id u → t = u) {id : Int} {t : Ty} {v : Value} (ht : Γ id t) (hv : v.HasType t) :
    Suits Γ (table.set id v).get? := by
  intro i u w hu hw
  rw [Constants.get?_set] at hw
  split at hw
  · rename_i hi
    subst hi
    cases hw
    exact hone ht hu ▸ hv
  · exact h i u w hu hw

/-- A declaration that is taken up gives its constant a value of the type of the constant. -/
theorem Constants.suits_declare (hs : s.Typed) (hone : ∀ {id t u}, s.Recorded id t → s.Recorded id u → t = u)
    {table table' : Constants} (htable : Expr.Suits s.Recorded table.get?) {y : Stmt} (hsound : y.Sound s.Recorded)
    (hentered : y.Entered given s) (h : table.declare given y = .ok table') : Expr.Suits s.Recorded table'.get? := by
  cases y with
  | const span d =>
    obtain ⟨c, older, v, hsuffix, -, -, htype, -⟩ := hentered
    have hrecorded : s.Recorded d.id d.value.type := ⟨c, hsuffix.subset List.mem_cons_self, htype⟩
    cases hv : d.value.evaluate table.get? with
    | error e =>
      simp only [declare, hv] at h
      cases h
    | ok v =>
      simp only [declare, hv] at h
      cases h
      exact htable.set hone hrecorded (((Stmt.sound_const _ _).mp hsound).2.1.hasType htable _ hv).2
  | option span d =>
    obtain ⟨c, older, hsuffix, hgiven, habsent, hdefault⟩ := hentered
    have hmem : (d.id, c) ∈ s.constants := hsuffix.subset List.mem_cons_self
    have hrecorded : s.Recorded d.id c.type := ⟨c, hmem, rfl⟩
    have htyped := hs.constants _ hmem
    cases hv : given.get? d.name with
    | some v =>
      simp only [declare, hv] at h
      cases h
      exact htable.set hone hrecorded (htyped.value v (hgiven.trans hv))
    | none =>
      cases hfallback : c.fallback with
      | none =>
        simp only [declare, hv, habsent hfallback, if_true] at h
        cases h
      | some v =>
        obtain ⟨i, hliteral⟩ := hdefault v hfallback
        have habsent : d.default.isAbsent = false := by rw [hliteral]; rfl
        have heval : d.default.evaluate table.get? = .ok v := by rw [hliteral]; rfl
        simp only [declare, hv, habsent, heval] at h
        cases h
        exact htable.set hone hrecorded (htyped.fallback v hfallback)
  | _ =>
    cases h
    exact htable

theorem Constants.suits_foldlM (hs : s.Typed) (hone : ∀ {id t u}, s.Recorded id t → s.Recorded id u → t = u)
    {ys : List Stmt} (hys : ∀ y ∈ ys, y.Sound s.Recorded ∧ y.Entered given s) {table table' : Constants}
    (htable : Expr.Suits s.Recorded table.get?) (h : ys.foldlM (declare given) table = .ok table') :
    Expr.Suits s.Recorded table'.get? := by
  induction ys generalizing table with
  | nil =>
    cases h
    exact htable
  | cons y ys ih =>
    rw [List.forall_mem_cons] at hys
    rw [List.foldlM_cons] at h
    cases hy : table.declare given y with
    | error e =>
      rw [hy] at h
      cases h
    | ok next =>
      rw [hy] at h
      exact ih hys.2 (suits_declare hs hone htable hys.1.1 hys.1.2 hy) h

end

/-- The constants of a specialized module have the values that their declarations give them. -/
theorem Specialization.constants_ofModule {m : Module} {settings : CheckSettings} {sp : Specialization}
    (h : ofModule (some m) settings = .ok sp) : Constants.ofModule sp.result settings.values = .ok sp.constants := by
  unfold ofModule at h
  dsimp only at h
  split at h
  · cases h
  obtain ⟨u, -, h⟩ := bind_eq_ok h
  obtain ⟨lowered, -, h⟩ := bind_eq_ok h
  obtain ⟨constants, hconstants, h⟩ := bind_eq_ok h
  obtain ⟨imported, -, h⟩ := bind_eq_ok h
  obtain ⟨own, -, h⟩ := bind_eq_ok h
  cases h
  cases htable : Constants.ofModule lowered settings.values with
  | error e =>
    rw [htable] at hconstants
    cases hconstants
  | ok table =>
    rw [htable] at hconstants
    cases hconstants
    rfl

namespace Module

open Check (Session State Site Reached)

variable {settings : CheckSettings} {m r : Module} {σ : State}

/-- Evaluation in a module that has been checked, at the end of the session. -/
structure KeepsTypes (given : OptionValues) (s : Session) (r : Module) : Prop where
  expressions : ∀ u ∈ r.units, ∀ e, .expr e ∈ u.rootStmt.nodes → e.KeepsType s.Recorded
  /-- a condition is a boolean, and no value that it has is refused for its type -/
  conditions : ∀ u ∈ r.units, ∀ y, .stmt y ∈ u.rootStmt.nodes → ∀ c ∈ y.conditions, c.type = .prim .bool ∧
    ∀ table : Constants, Expr.Suits s.Recorded table.get? → ∀ v, c.evaluate table.get? = .ok v →
      ∃ b, v = .bool b ∧ table.condition c = .ok b
  /-- the constants of the module have values of their types, if their numbers tell them apart -/
  tables : r.constantIds.Nodup → ∀ table, Constants.ofModule r given = .ok table → Expr.Suits s.Recorded table.get?

/-- Evaluation while a module is checked. -/
structure EvaluatesByType (settings : CheckSettings) (m : Module) : Prop where
  /-- what an expression is checked to has values of its type only -/
  expressions : ∀ {σ σ' : State} {site : Site} {e e' : Expr}, Reached settings m σ → e.Regular →
    Check.expression e site σ = .ok (e', σ') → e'.KeepsType σ'.session.Current
  /-- constants and options have values of the types that they are declared with -/
  constants : ∀ {σ : State}, Reached settings m σ → ∀ x ∈ σ.session.constants, ∀ v,
    x.2.value = some v ∨ x.2.fallback = some v → v.type = x.2.type
  /-- these are what is looked up, as far as they are known and with the defaults of options -/
  lookups : ∀ {σ : State}, Reached settings m σ →
    Expr.Suits σ.session.Current σ.session.value? ∧ Expr.Suits σ.session.Current σ.session.valueOrDefault?
  /-- a value that a condition has is a boolean, and it is taken as the one that is known -/
  conditions : ∀ {σ σ₁ σ₂ : State} {site : Site} {e c : Expr} {known : Option Bool} {v : Value}, Reached settings m σ →
    e.Regular → Check.expression e site σ = .ok (c, σ₁) → Check.constantCondition c site σ₁ = .ok (known, σ₂) →
      c.evaluate σ₁.session.value? = .ok v → ∃ b, v = .bool b ∧ known = some b
  result : ∀ r, m.check settings = .ok r → ∃ σ, m.Ends settings r σ ∧ r.KeepsTypes settings.values σ.session
  /-- a backend checks the result once more, and then refuses no condition for the type of its value -/
  backends : ∀ r, ChecksTo settings m r → ∀ settings' : CheckSettings, settings'.Regular → settings'.resolver = none →
    ∀ sp, Specialization.ofModule (some r) settings' = .ok sp → ∀ u ∈ sp.result.units, ∀ y, .stmt y ∈ u.rootStmt.nodes →
      ∀ c ∈ y.conditions, ∀ v, c.evaluate sp.constants.get? = .ok v → ∃ b, v = .bool b ∧ sp.constants.condition c = .ok b

theorem Ends.keepsTypes (hm : m.Regular) (hsettings : settings.Regular) (h : m.Ends settings r σ) :
    r.KeepsTypes settings.values σ.session := by
  have hσ := (h.adds hm hsettings).1
  constructor
  · intro u hu e he
    have hsound : e.Sound σ.session.Recorded := (h.unit hm hsettings hu).1.expr he
    exact hsound.keepsType
  · intro u hu y hy c hc
    have hdecides := (h.unit hm hsettings hu).1.decides hy hc
    exact ⟨Ty.eq_bool_of_isBool hdecides.bool, fun table htable v hv => hdecides.condition htable hv⟩
  · intro hdistinct table htable
    have hnodup : (σ.session.constants.map (·.1)).Nodup := (h.perm hm hsettings).nodup_iff.mpr hdistinct
    refine Constants.suits_foldlM hσ.typed.session (Session.recorded_unique hnodup) (fun y hy => ?_) (fun _ _ _ _ hw => ?_) htable
    · obtain ⟨u, hu, hy⟩ := List.mem_flatMap.mp hy
      obtain ⟨hsound, hentered⟩ := h.unit hm hsettings hu
      have hmem : .stmt y ∈ u.rootStmt.nodes := Stmt.mem_walked.mp hy
      exact ⟨hsound.stmt hmem, Stmt.entered_of_constants hentered hmem⟩
    · cases hw

/-- Evaluation keeps to types, in the check of a module and in what results. -/
theorem evaluation_byType (hm : m.Regular) (hsettings : settings.Regular) : m.EvaluatesByType settings := by
  constructor
  · intro σ σ' site e e' hσ he hrun
    obtain ⟨-, hsame, htyped⟩ := (hσ.upheld hm hsettings).after (Check.upholds_expression e he) hrun
    rw [hsame]
    exact htyped.sound.keepsType
  · intro σ hσ x hx v hv
    have htyped := (hσ.upheld hm hsettings).typed.session.constants x hx
    rcases hv with hv | hv
    · exact (htyped.value v hv).type_eq htyped.proper
    · exact (htyped.fallback v hv).type_eq htyped.proper
  · intro σ hσ
    have hsession := (hσ.upheld hm hsettings).typed.session
    exact ⟨hsession.suits, hsession.suits_default⟩
  · intro σ σ₁ σ₂ site e c known v hσ he hrun hcondition hv
    obtain ⟨hσ₁, hsame, htyped⟩ := (hσ.upheld hm hsettings).after (Check.upholds_expression e he) hrun
    rw [← hsame] at htyped
    have hdecides := (hσ₁.after (Check.upholds_constantCondition htyped) hcondition).2.2
    have hvalue := (hdecides.sound.hasType hσ₁.typed.session.suits c hv).2
    rw [Ty.eq_bool_of_isBool hdecides.bool] at hvalue
    obtain ⟨b, rfl⟩ := hvalue.bool
    exact ⟨b, rfl, Check.known_of_constantCondition htyped.known hcondition hv⟩
  · intro r hr
    obtain ⟨σ, hends⟩ := ends_of_check hr
    exact ⟨σ, hends, hends.keepsTypes hm hsettings⟩
  · intro r hr settings' hsettings' hresolver sp hsp u hu y hy c hc v hv
    obtain ⟨σ, hends⟩ := ends_of_check hr.run
    have hregular : r.Regular := hends.regular hm hsettings
    obtain ⟨hcheck, -⟩ := Specialization.ofModule_ok hsp
    have htable := Specialization.constants_ofModule hsp
    obtain ⟨σ', hends'⟩ := ends_of_check hcheck
    have hkeeps := hends'.keepsTypes hregular hsettings'
    obtain ⟨hnodup, hids⟩ := hr.constantIds
    have hdistinct : sp.result.constantIds.Nodup := hends'.nodup_constantIds hregular hsettings' hresolver hids hnodup
    exact (hkeeps.conditions u hu y hy c hc).2 _ (hkeeps.tables hdistinct _ htable) v hv

-- A module whose conditions depend on options, one of them through a component of a vector.
private def gatedText : Text := Text.join "\n" [
  "module;",
  "option N: i32 = 3;",
  "option F: bool;",
  "const K = vec3[f32](f32(N) * 0.5);",
  "const B = K.x > 1.0 && F;",
  "[cond(B)] fn f() -> f32 \x7b return K.y; \x7d",
  "fn g() -> i32",
  "\x7b",
  "  const if (N == 2) return 1;",
  "  while (B) break;",
  "  return 0;",
  "\x7d"]

private def gatedSettings : CheckSettings where
  values := ⟨[(OptionValues.key "F", .bool true)], List.pairwise_singleton _ _⟩

/-- The text is parsed, and both the check and the one that a backend makes have a result. -/
private theorem gated_runs : ∃ m r sp, parse gatedText = .ok m ∧ m.check gatedSettings = .ok r ∧
    r.keys.length + 1 < Serial.limit ∧ Specialization.ofModule (some r) gatedSettings = .ok sp := by
  have hrun : (do
      let m ← (parse gatedText).toOption
      let r ← (m.check gatedSettings).toOption
      if r.keys.length + 1 < Serial.limit then
        let sp ← (Specialization.ofModule (some r) gatedSettings).toOption
        pure sp.declarations.length
      else none) = some 6 := by decide +kernel
  cases hm : parse gatedText with
  | error e => simp [hm, Except.toOption] at hrun
  | ok m =>
    cases hr : m.check gatedSettings with
    | error e => simp [hm, hr, Except.toOption] at hrun
    | ok r =>
      cases hsp : Specialization.ofModule (some r) gatedSettings with
      | error e => simp [hm, hr, hsp, Except.toOption] at hrun
      | ok sp =>
        refine ⟨m, r, sp, rfl, hr, ?_, hsp⟩
        by_contra hroom
        simp [hm, hr, hroom, Except.toOption] at hrun

theorem evaluation_byType_gated : ∃ m r sp, m.Regular ∧ gatedSettings.Regular ∧ ChecksTo gatedSettings m r ∧
    Specialization.ofModule (some r) gatedSettings = .ok sp ∧ m.EvaluatesByType gatedSettings := by
  obtain ⟨m, r, sp, hparse, hrun, hroom, hsp⟩ := gated_runs
  have hchecks : ChecksTo gatedSettings m r := by
    refine ⟨⟨_, hparse⟩, nofun, rfl, fun name v hv => ?_, hrun, hroom⟩
    simp only [gatedSettings, OptionValues.get?, Table.get?, List.find?_cons, List.find?_nil] at hv
    split at hv
    · cases hv
      rfl
    · cases hv
  obtain ⟨hm, hsettings⟩ := hchecks.regular
  exact ⟨m, r, sp, hm, hsettings, hchecks, hsp, evaluation_byType hm hsettings⟩

end Module

end Shading
