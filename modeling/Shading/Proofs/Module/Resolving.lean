import Shading.Proofs.Module.Constants
import Shading.Proofs.Module.Comparison

/-! The values of the constants of a module that has been checked. They are found once while the module is checked, and
once more in what results, where they are taken up one declaration after the other. -/
namespace Shading

open Stmt (Everywhere EverywhereAll EverywhereArms Here declaresAll)

namespace Expr

variable {f g : Int → Option Value} {e : Expr}

/-- Is what is known of the constants in an expression also known elsewhere? -/
def Extends (f g : Int → Option Value) (e : Expr) : Prop :=
  ∀ i id, .expr (.const i id) ∈ e.nodes → ∀ v, f id = some v → g id = some v

theorem Extends.child (h : e.Extends f g) {c : Expr} (hc : c ∈ e.children) : c.Extends f g := by
  have hpresent : e.isAbsent = false := by
    cases e with
    | absent => cases hc
    | _ => rfl
  intro i id hn
  refine h i id ?_
  rw [nodes_eq hpresent]
  exact List.mem_cons_of_mem _ (List.mem_flatMap.mpr ⟨c, hc, hn⟩)

mutual

/-- An expression that has a value keeps it where the same is known of its constants. -/
theorem evaluate_extends {v : Value} (e : Expr) (hfg : e.Extends f g) (h : e.evaluate f = .ok v) :
    e.evaluate g = .ok v := by
  cases e with
  | const i id =>
    simp only [evaluate] at h ⊢
    cases hf : f id with
    | none => rw [hf] at h; cases h
    | some w =>
      rw [hf] at h
      rw [hfg i id (mem_nodes_self rfl) w hf]
      exact h
  | unary i op e =>
    simp only [evaluate, Value.bind_ok] at h ⊢
    obtain ⟨w, hw, h⟩ := h
    exact ⟨w, evaluate_extends e (hfg.child (by simp [children])) hw, h⟩
  | binary i op l r =>
    simp only [evaluate, Value.bind_ok] at h ⊢
    obtain ⟨x, hx, y, hy, h⟩ := h
    exact ⟨x, evaluate_extends l (hfg.child (by simp [children])) hx, y,
      evaluate_extends r (hfg.child (by simp [children])) hy, h⟩
  | ternary i c t e =>
    simp only [evaluate, Value.bind_ok] at h ⊢
    obtain ⟨w, hw, h⟩ := h
    refine ⟨w, evaluate_extends c (hfg.child (by simp [children])) hw, ?_⟩
    split at h
    · exact evaluate_extends t (hfg.child (by simp [children])) h
    · exact evaluate_extends e (hfg.child (by simp [children])) h
    · cases h
  | cast i t as =>
    cases t with
    | typeRef j target =>
      simp only [evaluate, Value.bind_ok] at h ⊢
      obtain ⟨ws, hws, h⟩ := h
      exact ⟨ws, evaluateAll_extends as (fun a ha => hfg.child (by simp [children, ha])) hws, h⟩
    | _ => cases h
  | swizzle i b s =>
    simp only [evaluate, Value.bind_ok] at h ⊢
    obtain ⟨w, hw, h⟩ := h
    exact ⟨w, evaluate_extends b (hfg.child (by simp [children])) hw, h⟩
  | index i b is =>
    simp only [evaluate, Value.bind_ok] at h ⊢
    obtain ⟨w, hw, h⟩ := h
    exact ⟨w, evaluate_extends b (hfg.child (by simp [children])) hw,
      evaluateIndices_extends is (fun a ha => hfg.child (by simp [children, ha])) h⟩
  | _ => exact h

theorem evaluateAll_extends {vs : List Value} (es : List Expr) (hfg : ∀ e ∈ es, e.Extends f g)
    (h : evaluateAll f es = .ok vs) : evaluateAll g es = .ok vs := by
  cases es with
  | nil => exact h
  | cons e es =>
    rw [List.forall_mem_cons] at hfg
    simp only [evaluateAll, Value.bind_ok] at h ⊢
    obtain ⟨w, hw, ws, hws, h⟩ := h
    exact ⟨w, evaluate_extends e hfg.1 hw, ws, evaluateAll_extends es hfg.2 hws, h⟩

theorem evaluateIndices_extends {v w : Value} (es : List Expr) (hfg : ∀ e ∈ es, e.Extends f g)
    (h : evaluateIndices f v es = .ok w) : evaluateIndices g v es = .ok w := by
  cases es with
  | nil => exact h
  | cons e es =>
    rw [List.forall_mem_cons] at hfg
    simp only [evaluateIndices, Value.bind_ok] at h ⊢
    obtain ⟨i, hi, h⟩ := h
    refine ⟨i, evaluate_extends e hfg.1 hi, ?_⟩
    split at h
    · cases h
    · rename_i n hn
      obtain ⟨x, hx, h⟩ := Value.bind_ok.mp h
      exact Value.bind_ok.mpr ⟨x, hx, evaluateIndices_extends es hfg.2 h⟩

end

end Expr

namespace Stmt

variable {given : OptionValues} {env : Surroundings} {P : Place → Node → Prop} {p : Place} {Γ : List Referent}

/-- Each statement refers only to what is declared from the start, by itself or by one of those that come before it. -/
def Ordered (given : OptionValues) (P : Place → Node → Prop) : List Referent → List Stmt → Prop
  | _, [] => True
  | Γ, y :: ys => (∃ q : Place, q.context ⊆ Γ ∧ Here P q y) ∧ Ordered given P (Γ ++ y.own given) ys

theorem ordered_append {xs ys : List Stmt} :
    Ordered given P Γ (xs ++ ys) ↔ Ordered given P Γ xs ∧ Ordered given P (Γ ++ xs.flatMap (own given)) ys := by
  induction xs generalizing Γ with
  | nil => simp [Ordered]
  | cons x xs ih => simp only [List.cons_append, Ordered, ih, List.flatMap_cons, List.append_assoc, and_assoc]

/-- What imports bring is declared from the start, also where more is. -/
theorem importsWithin_append (himports : env.ImportsWithin Γ) (Δ : List Referent) : env.ImportsWithin (Γ ++ Δ) := by
  intro name ds hds
  exact List.Subset.trans (himports hds) (List.subset_append_left _ _)

mutual

/-- What holds everywhere in a statement holds of what a walk reaches, at places where only earlier declarations can be
referred to. -/
theorem Everywhere.ordered {p : Place} {Γ : List Referent} (himports : env.ImportsWithin Γ) (hp : p.context ⊆ Γ)
    (x : Stmt) (h : Everywhere env P p x) : Ordered env.given P Γ x.walked := by
  cases habsent : x.isAbsent with
  | true =>
    cases x with
    | absent => trivial
    | _ => cases habsent
  | false =>
    rw [walked_eq habsent]
    refine ⟨⟨p, hp, h.here habsent⟩, ?_⟩
    have hlater : env.ImportsWithin (Γ ++ x.own env.given) := importsWithin_append himports _
    have hleft : p.context ⊆ Γ ++ x.own env.given := List.Subset.trans hp (List.subset_append_left _ _)
    cases x with
    | function span head body =>
      refine EverywhereAll.ordered hlater ?_ body h.2
      refine List.append_subset.mpr ⟨fun d hd => ?_, List.cons_subset.mpr ⟨?_, hleft⟩⟩
      · exact List.mem_append_right _ (List.mem_cons_of_mem _ hd)
      · exact List.mem_append_right _ List.mem_cons_self
    | multi span body => exact EverywhereAll.ordered hlater hleft body h.2
    | branch span isConst arms other =>
      rw [children, List.flatMap_append, ordered_append, List.flatMap_singleton]
      refine ⟨EverywhereArms.ordered hlater hleft arms h.2.1, ?_⟩
      exact Everywhere.ordered (importsWithin_append hlater _) (List.Subset.trans hleft (List.subset_append_left _ _)) other h.2.2
    | forRange span head body | forEach span head body =>
      rw [children, List.flatMap_singleton]
      exact Everywhere.ordered hlater (List.append_subset.mpr ⟨List.subset_append_right _ _, hleft⟩) body h.2
    | conditional span c body | loop span c u body | «scoped» span body =>
      rw [children, List.flatMap_singleton]
      exact Everywhere.ordered hlater hleft body h.2
    | _ => trivial

theorem EverywhereAll.ordered {p : Place} {Γ : List Referent} (himports : env.ImportsWithin Γ) (hp : p.context ⊆ Γ)
    (xs : List Stmt) (h : EverywhereAll env P p xs) : Ordered env.given P Γ (xs.flatMap walked) := by
  cases xs with
  | nil => trivial
  | cons x xs =>
    rw [List.flatMap_cons, ordered_append]
    refine ⟨Everywhere.ordered himports hp x h.1, ?_⟩
    have hlater : env.ImportsWithin (Γ ++ x.declarations env.given) := importsWithin_append himports _
    have hdeclares : x.declares env ⊆ Γ ++ x.declarations env.given :=
      declares_subset_of hlater x (List.subset_append_right _ _)
    refine EverywhereAll.ordered hlater (List.append_subset.mpr ⟨hdeclares, ?_⟩) xs h.2
    exact List.Subset.trans hp (List.subset_append_left _ _)

theorem EverywhereArms.ordered {p : Place} {Γ : List Referent} (himports : env.ImportsWithin Γ) (hp : p.context ⊆ Γ)
    (arms : List (Expr × Stmt)) (h : EverywhereArms env P p arms) : Ordered env.given P Γ ((arms.map (·.2)).flatMap walked) := by
  match arms with
  | [] => trivial
  | (c, x) :: arms =>
    rw [List.map_cons, List.flatMap_cons, ordered_append]
    refine ⟨Everywhere.ordered himports hp x h.1, ?_⟩
    exact EverywhereArms.ordered (importsWithin_append himports _) (List.Subset.trans hp (List.subset_append_left _ _)) arms h.2

end

end Stmt

/-- In a checked module and those that it imports, each statement refers only to what is declared before it. -/
theorem Module.Throughout.ordered {given : OptionValues} {P : Place → Node → Prop} {r : Module} (h : r.Throughout given P) :
    Stmt.Ordered given P [] (r.units.flatMap fun u => u.rootStmt.walked) := by
  have hunit (before : List (Text × Module)) (u : Module) (hu : Everywhere (.among given before) P {} u.rootStmt) :
      Stmt.Ordered given P ((before.flatMap fun x => x.2.rootStmt.walked).flatMap (Stmt.own given)) u.rootStmt.walked := by
    refine Everywhere.ordered (Surroundings.importsWithin_among before fun x hx => ?_) (List.nil_subset _) _ hu
    intro d hd
    rw [List.flatMap_assoc]
    exact List.mem_flatMap.mpr ⟨x, hx, hd⟩
  have himported (before after : List (Text × Module)) (heq : r.imported = before ++ after) :
      Stmt.Ordered given P [] (before.flatMap fun x => x.2.rootStmt.walked) := by
    induction before using List.reverseRecOn generalizing after with
    | nil => trivial
    | append_singleton before x ih =>
      rw [List.append_assoc] at heq
      rw [List.flatMap_append, Stmt.ordered_append, List.flatMap_singleton]
      exact ⟨ih _ heq, hunit before x.2 (h.imported before x after heq)⟩
  rw [units, List.flatMap_append, Stmt.ordered_append, List.flatMap_map, List.flatMap_singleton]
  exact ⟨himported r.imported [] (List.append_nil _).symm, hunit r.imported r h.root⟩

namespace Check.Session

variable {s : Session}

theorem constant?_of_mem (hnodup : (s.constants.map (·.1)).Nodup) {id : Int} {c : Constant} (h : (id, c) ∈ s.constants) :
    s.constant? id = some c := by
  unfold constant?
  cases hlookup : s.constants.lookup id with
  | none =>
    rw [List.lookup_eq_none_iff] at hlookup
    have hne := hlookup _ h
    simp at hne
  | some d =>
    have hsame := List.inj_on_of_nodup_map hnodup (mem_of_lookup hlookup) h rfl
    cases hsame
    rfl

/-- What was known of a constant is known later as well. -/
theorem valueOrDefault?_of_older (hnodup : (s.constants.map (·.1)).Nodup) {older : List (Int × Constant)}
    (holder : older <:+ s.constants) {id : Int} {v : Value}
    (h : ({ constants := older } : Session).valueOrDefault? id = some v) : s.valueOrDefault? id = some v := by
  unfold valueOrDefault? at h ⊢
  obtain ⟨c, hc, hv⟩ := Option.bind_eq_some_iff.mp h
  have hmem : (id, c) ∈ s.constants := holder.subset (mem_of_lookup hc)
  rw [constant?_of_mem hnodup hmem]
  exact hv

theorem mem_of_valueOrDefault? {id : Int} {v : Value} (h : s.valueOrDefault? id = some v) : id ∈ s.constants.map (·.1) := by
  obtain ⟨c, hc, -⟩ := Option.bind_eq_some_iff.mp h
  exact List.mem_map_of_mem (mem_of_lookup hc)

/-- A value that is known without defaults is the one that is known with them. -/
theorem valueOrDefault?_of_value {id : Int} {v : Value} (h : s.value? id = some v) : s.valueOrDefault? id = some v := by
  obtain ⟨c, hc, hv⟩ := Option.bind_eq_some_iff.mp h
  rw [valueOrDefault?, hc]
  show (c.value <|> c.fallback) = some v
  rw [hv]
  rfl

end Check.Session

namespace Stmt

/-- The value that a declaration gives to its constant, where others have the values that are looked up. -/
def Defines (given : OptionValues) (lookup : Int → Option Value) : Stmt → Value → Prop
  | .const _ d, v => lookup d.id = some v ∧ d.value.evaluate lookup = .ok v
  | .option _ d, v => lookup d.id = some v ∧ (given.get? d.name <|> d.default.literal?) = some v
  | _, _ => True

/-- A declaration of a constant declares one of its number. -/
theorem mem_own_of_constant (given : OptionValues) {d : Stmt} (h : d ∈ constant d) :
    ∃ t v, Referent.constant d.constantId t v ∈ d.own given := by
  cases d with
  | const span d => exact ⟨_, _, List.mem_singleton.mpr rfl⟩
  | option span d => exact ⟨_, _, List.mem_singleton.mpr rfl⟩
  | _ => cases h

/-- Does an option have a value that is given for it, or else a default? -/
def hasValue (given : OptionValues) : Stmt → Bool
  | .option _ d => (given.get? d.name).isSome || d.default.isPresent
  | _ => true

/-- At the end of a session, constants have the values that their declarations give them. -/
theorem Entered.defines {given : OptionValues} {s : Check.Session} (hnodup : (s.constants.map (·.1)).Nodup) {y : Stmt}
    (h : y.Entered given s) (hvalue : y.hasValue given) : ∃ v, y.Defines given s.valueOrDefault? v := by
  cases y with
  | const span d =>
    obtain ⟨c, older, v, hsuffix, hv, hknown, -⟩ := h
    have hconstant := Check.Session.constant?_of_mem hnodup (hsuffix.subset List.mem_cons_self)
    refine ⟨v, ?_, Expr.evaluate_extends _ (fun _ id _ w hw => ?_) hv⟩
    · rw [Check.Session.valueOrDefault?, hconstant]
      exact hknown
    · exact Check.Session.valueOrDefault?_of_older hnodup ((List.suffix_cons _ _).trans hsuffix) hw
  | option span d =>
    obtain ⟨c, older, hsuffix, hgiven, habsent, hdefault⟩ := h
    have hconstant := Check.Session.constant?_of_mem hnodup (hsuffix.subset List.mem_cons_self)
    have hlookup : s.valueOrDefault? d.id = (c.value <|> c.fallback) := by
      rw [Check.Session.valueOrDefault?, hconstant]
      rfl
    cases hv : given.get? d.name with
    | some v =>
      refine ⟨v, ?_, ?_⟩
      · rw [hlookup, hgiven, hv]
        rfl
      · rw [hv]
        rfl
    | none =>
      cases hfallback : c.fallback with
      | none =>
        simp [hasValue, hv, Expr.isPresent, habsent hfallback] at hvalue
      | some v =>
        obtain ⟨i, hliteral⟩ := hdefault v hfallback
        refine ⟨v, ?_, ?_⟩
        · rw [hlookup, hgiven, hv, hfallback]
          rfl
        · rw [hv, hliteral]
          rfl
  | _ => exact ⟨.absent, trivial⟩

/-- A constant whose value is known without defaults is declared with a literal. -/
theorem Entered.literal {given : OptionValues} {s : Check.Session} (hnodup : (s.constants.map (·.1)).Nodup) {span : Span}
    {d : ConstDecl} (h : (Stmt.const span d).Entered given s) {v : Value} (hv : s.value? d.id = some v) :
    ∃ span, d.value = .ofValue span v := by
  obtain ⟨c, older, -, hsuffix, -, -, -, hliteral⟩ := h
  have hconstant := Check.Session.constant?_of_mem hnodup (hsuffix.subset List.mem_cons_self)
  rw [Check.Session.value?, hconstant] at hv
  exact hliteral v hv

end Stmt

namespace Constants

variable {given : OptionValues} {lookup : Int → Option Value} {Γ : List Referent} {table : Constants}

/-- A table has the values that are looked up, of all declared constants and of no others. -/
structure Holds (lookup : Int → Option Value) (Γ : List Referent) (table : Constants) : Prop where
  declared : ∀ {id t v}, Referent.constant id t v ∈ Γ → table.get? id = lookup id
  only : ∀ id, table.get? id = none ∨ table.get? id = lookup id

theorem Holds.set (h : table.Holds lookup Γ) {id : Int} {t : Ty} {v : Value} (hv : lookup id = some v) (w : Option Value) :
    (table.set id v).Holds lookup (Γ ++ [.constant id t w]) := by
  constructor
  · intro i u x hmem
    rw [get?_set]
    split
    · rename_i hi
      rw [hi, hv]
    · rename_i hi
      rcases List.mem_append.mp hmem with hmem | hmem
      · exact h.declared hmem
      · cases List.mem_singleton.mp hmem
        exact absurd rfl hi
  · intro i
    rw [get?_set]
    split
    · rename_i hi
      rw [hi, hv]
      exact .inr rfl
    · exact h.only i

theorem Holds.append (h : table.Holds lookup Γ) {Δ : List Referent} (hΔ : ∀ id t v, Referent.constant id t v ∉ Δ) :
    table.Holds lookup (Γ ++ Δ) := by
  refine ⟨fun hmem => ?_, h.only⟩
  rcases List.mem_append.mp hmem with hmem | hmem
  · exact h.declared hmem
  · exact absurd hmem (hΔ _ _ _)

/-- A declaration is taken up at a place where the table has all constants that it refers to. -/
theorem Holds.declare (h : table.Holds lookup Γ) {q : Place} (hq : q.context ⊆ Γ) {y : Stmt}
    (hy : Stmt.Here Node.Valid q y) {v : Value} (hv : y.Defines given lookup v) :
    ∃ table', table.declare given y = .ok table' ∧ table'.Holds lookup (Γ ++ y.own given) := by
  cases y with
  | const span d =>
    obtain ⟨hlookup, hvalue⟩ := hv
    have hagain : d.value.evaluate table.get? = .ok v := by
      refine Expr.evaluate_extends _ (fun i id hn w hw => ?_) hvalue
      obtain ⟨-, ⟨x, hx⟩, -⟩ := hy.2 d.value (by simp [Stmt.ownExprs]) _ hn
      rw [h.declared (hq hx), hw]
    refine ⟨table.set d.id v, ?_, h.set hlookup _⟩
    simp only [Constants.declare, hagain]
  | option span d =>
    obtain ⟨hlookup, hvalue⟩ := hv
    refine ⟨table.set d.id v, ?_, h.set hlookup _⟩
    cases hgiven : given.get? d.name with
    | some w =>
      rw [hgiven] at hvalue
      cases hvalue
      simp only [Constants.declare, hgiven]
    | none =>
      rw [hgiven] at hvalue
      replace hvalue : d.default.literal? = some v := hvalue
      cases hdefault : d.default with
      | literal i w =>
        rw [hdefault] at hvalue
        cases hvalue
        simp only [Constants.declare, hgiven, hdefault]
        rfl
      | _ =>
        rw [hdefault] at hvalue
        cases hvalue
  | _ =>
    refine ⟨table, rfl, h.append fun id t w hmem => ?_⟩
    have hnone := Stmt.constantId_of_own hmem
    cases hnone

/-- Declarations are taken up in an order in which each refers to earlier ones only. -/
theorem Holds.declares {ys : List Stmt} (h : table.Holds lookup Γ) (hys : Stmt.Ordered given Node.Valid Γ ys)
    (hv : ∀ y ∈ ys, ∃ v, y.Defines given lookup v) :
    ∃ table', ys.foldlM (Constants.declare given) table = .ok table' ∧
      table'.Holds lookup (Γ ++ ys.flatMap (Stmt.own given)) := by
  induction ys generalizing Γ table with
  | nil => exact ⟨table, rfl, by simpa using h⟩
  | cons y ys ih =>
    rw [List.forall_mem_cons] at hv
    obtain ⟨⟨q, hq, hy⟩, hrest⟩ := hys
    obtain ⟨⟨v, hv⟩, hvs⟩ := hv
    obtain ⟨next, hnext, hholds⟩ := h.declare hq hy hv
    obtain ⟨table', htable, hall⟩ := ih hholds hrest hvs
    refine ⟨table', ?_, ?_⟩
    · rw [List.foldlM_cons, hnext]
      exact htable
    · rw [List.flatMap_cons, ← List.append_assoc]
      exact hall

end Constants

namespace Module

open Check (State)

variable {settings : CheckSettings} {m r : Module} {σ : State}

/-- The values of the constants of a checked module and the session at the end of the check agree. -/
structure Agrees (given : OptionValues) (σ : State) (r : Module) (table : Constants) : Prop where
  /-- numbers that no constant has have no value -/
  session : ∀ id, table.get? id = σ.session.valueOrDefault? id
  /-- there is nothing to tell the values apart by -/
  same : ∀ id v w, table.get? id = some v → σ.session.valueOrDefault? id = some w → v.same w
  /-- a constant has the value of its declaration, and that is a literal if it depends on no default -/
  const : ∀ span d, .const span d ∈ r.constants → ∃ v, table.get? d.id = some v ∧ d.value.evaluate table.get? = .ok v ∧
    ∀ w, σ.session.value? d.id = some w → ∃ span, d.value = .ofValue span v
  option : ∀ span d, .option span d ∈ r.constants → ∃ v, table.get? d.id = some v ∧
    (given.get? d.name <|> d.default.literal?) = some v

namespace Ends

variable (hm : m.Regular) (hsettings : settings.Regular) (h : m.Ends settings r σ)

include hm hsettings h

theorem nodup (hnodup : r.constantIds.Nodup) : (σ.session.constants.map (·.1)).Nodup :=
  (h.perm hm hsettings).nodup_iff.mpr hnodup

/-- The session has the values that the declarations in the result give. -/
theorem defines (hnodup : r.constantIds.Nodup) (hoptions : ∀ d ∈ r.constants, d.hasValue settings.values) {u : Module}
    (hu : u ∈ r.units) {y : Stmt} (hy : .stmt y ∈ u.rootStmt.nodes) :
    ∃ v, y.Defines settings.values σ.session.valueOrDefault? v := by
  have hentered : y.Entered settings.values σ.session := Stmt.entered_of_constants (h.unit hm hsettings hu).2 hy
  refine hentered.defines (h.nodup hm hsettings hnodup) ?_
  cases y with
  | option span d =>
    have hself : Stmt.option span d ∈ Stmt.constant (.option span d) := List.mem_cons_self
    exact hoptions _ (List.mem_flatMap.mpr ⟨u, hu, Stmt.mem_constants.mpr ⟨hy, hself⟩⟩)
  | _ => rfl

/-- A table that has the values of all declarations is the one of the session. -/
theorem get?_eq {table : Constants} (htable : table.Holds σ.session.valueOrDefault?
      ((r.units.flatMap fun u => u.rootStmt.walked).flatMap (Stmt.own settings.values))) (id : Int) :
    table.get? id = σ.session.valueOrDefault? id := by
  cases hv : σ.session.valueOrDefault? id with
  | none =>
    rcases htable.only id with hnone | hsame
    · exact hnone
    · exact hsame.trans hv
  | some v =>
    have hid : id ∈ r.constantIds := (h.perm hm hsettings).subset (Check.Session.mem_of_valueOrDefault? hv)
    obtain ⟨d, hd, rfl⟩ := List.mem_map.mp hid
    obtain ⟨u, hu, hd⟩ := List.mem_flatMap.mp hd
    obtain ⟨hmem, hself⟩ := Stmt.mem_constants.mp hd
    obtain ⟨t, w, hdeclared⟩ := Stmt.mem_own_of_constant settings.values hself
    rw [← hv]
    refine htable.declared (List.mem_flatMap.mpr ⟨d, ?_, hdeclared⟩)
    exact List.mem_flatMap.mpr ⟨u, hu, Stmt.mem_walked.mpr hmem⟩

end Ends

/-- If each option has a value or a default, the constants of a checked module have values, and these are the ones that
they had at the end of the check. -/
theorem ChecksTo.resolves (h : ChecksTo settings m r) (hoptions : ∀ d ∈ r.constants, d.hasValue settings.values) :
    ∃ σ table, m.Ends settings r σ ∧ Constants.ofModule r settings.values = .ok table ∧
      r.Agrees settings.values σ table := by
  obtain ⟨hm, hsettings⟩ := h.regular
  obtain ⟨σ, hends⟩ := ends_of_check h.run
  have hnodup := h.constantIds.1
  have hdefines {u : Module} (hu : u ∈ r.units) {y : Stmt} (hy : .stmt y ∈ u.rootStmt.nodes) :=
    hends.defines hm hsettings hnodup hoptions hu hy
  have hstart : Constants.Holds σ.session.valueOrDefault? [] {} := ⟨nofun, fun _ => .inl rfl⟩
  obtain ⟨table, htable, hholds⟩ := hstart.declares h.sound.2.ordered fun y hy => by
    obtain ⟨u, hu, hy⟩ := List.mem_flatMap.mp hy
    exact hdefines hu (Stmt.mem_walked.mp hy)
  have hsession := hends.get?_eq hm hsettings hholds
  have hsame : table.get? = σ.session.valueOrDefault? := funext hsession
  refine ⟨σ, table, hends, htable, hsession, ?_, ?_, ?_⟩
  · intro id v w hv hw
    rw [hsession, hw] at hv
    cases hv
    exact Value.same_refl _
  · intro span d hd
    obtain ⟨u, hu, hd⟩ := List.mem_flatMap.mp hd
    obtain ⟨v, hlookup, hvalue⟩ := hdefines hu (Stmt.mem_constants.mp hd).1
    rw [hsame]
    refine ⟨v, hlookup, hvalue, fun w hw => ?_⟩
    have hv := Check.Session.valueOrDefault?_of_value hw
    rw [hlookup] at hv
    cases hv
    have hentered := (hends.unit hm hsettings hu).2 _ hd
    exact hentered.literal (hends.nodup hm hsettings hnodup) hw
  · intro span d hd
    obtain ⟨u, hu, hd⟩ := List.mem_flatMap.mp hd
    obtain ⟨v, hlookup, hvalue⟩ := hdefines hu (Stmt.mem_constants.mp hd).1
    rw [hsame]
    exact ⟨v, hlookup, hvalue⟩

-- A module with constants under conditions, in functions and in a module that it imports. One option is given, and the
-- values of some constants depend on the default of the other one.
private def scalesText : Text := "module scales; option N: i32 = 4; [export] const K = 2.5 * f32(N);"

private def scaledText : Text := Text.join "\n" [
  "module; import K as S from scales;",
  "option W: u32;",
  "option D: i32 = 3;",
  "const A = 2 * 3;",
  "const B = A + D;",
  "[cond(D > 2)] const C = f32(B) * S;",
  "fn f() -> i32",
  "\x7b",
  "  const L = B + 1;",
  "  const if (W == 1u) \x7b const M = L * 2; return M; \x7d",
  "  return L;",
  "\x7d"]

private def parsed (source : Text) : Module :=
  match parse source with
  | .ok m => m
  | .error _ => {}

private def scaledSettings : CheckSettings where
  resolver := some ⟨["scales"], fun name => .ok (if name = ("scales" : Text) then some (parsed scalesText) else none)⟩
  values := ⟨[(OptionValues.key "W", .u32 1)], List.pairwise_singleton _ _⟩

private theorem parse_parsed {source : Text} (h : (parse source).isOk) : parse source = .ok (parsed source) := by
  unfold parsed
  cases hm : parse source with
  | ok m => rfl
  | error e =>
    rw [hm] at h
    cases h

/-- The texts are parsed, and the check has a result with nine constants, each of which has a value or a default. -/
private theorem scaled_runs : ∃ r, (parsed scaledText).check scaledSettings = .ok r ∧
    r.keys.length + 1 < Serial.limit ∧ (∀ d ∈ r.constants, d.hasValue scaledSettings.values) ∧ r.constants.length = 9 := by
  have hrun : (do
      let r ← ((parsed scaledText).check scaledSettings).toOption
      if r.keys.length + 1 < Serial.limit ∧ (∀ d ∈ r.constants, d.hasValue scaledSettings.values) ∧
        r.constants.length = 9 then pure () else none) = some () := by decide +kernel
  cases hr : (parsed scaledText).check scaledSettings with
  | error e => simp [hr, Except.toOption] at hrun
  | ok r =>
    refine ⟨r, rfl, ?_⟩
    simpa [hr, Except.toOption] using hrun

theorem resolves_scaled : ∃ r, ChecksTo scaledSettings (parsed scaledText) r ∧
    (∀ d ∈ r.constants, d.hasValue scaledSettings.values) ∧ r.constants.length = 9 ∧
    ∃ σ table, (parsed scaledText).Ends scaledSettings r σ ∧ Constants.ofModule r scaledSettings.values = .ok table ∧
      r.Agrees scaledSettings.values σ table := by
  obtain ⟨r, hrun, hroom, hoptions, hcount⟩ := scaled_runs
  have hchecks : ChecksTo scaledSettings (parsed scaledText) r := by
    refine ⟨⟨_, parse_parsed (by decide +kernel)⟩, fun x hx name n hn => ?_, rfl, fun name v hv => ?_, hrun, hroom⟩
    · cases hx
      simp only [Except.ok.injEq, Option.ite_none_right_eq_some, Option.some.injEq] at hn
      obtain ⟨-, rfl⟩ := hn
      exact ⟨scalesText, parse_parsed (by decide +kernel)⟩
    · simp only [scaledSettings, OptionValues.get?, Table.get?, List.find?_cons, List.find?_nil] at hv
      split at hv
      · cases hv
        rfl
      · cases hv
  exact ⟨r, hchecks, hoptions, hcount, hchecks.resolves hoptions⟩

end Module

end Shading
