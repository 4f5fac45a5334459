import Shading.Proofs.Check.Importing
import Shading.Proofs.Check.Tracing
import Shading.Proofs.Module.Imports
import Shading.Proofs.Module.Leaves

/-! The check of a module as a walk over its declarations. A relation of states that neither checks outside of modules
nor loaders break is kept along every check, and between the declarations nothing happens but what every check keeps.
-/
namespace Shading.Check

variable {α β : Type}

/-- A relation between the states before and after a check that the small steps of a check keep. What is to stand
before the current statement does not matter for it. -/
structure Coarse (R : State → State → Prop) : Prop where
  refl : ∀ σ, R σ σ
  trans : ∀ {σ σ₁ σ₂}, R σ σ₁ → R σ₁ σ₂ → R σ σ₂
  beside : ∀ {σ σ'}, σ.Beside σ' → R σ σ'
  pending : ∀ {σ σ' : State}, R (σ.withPending []) σ' → R σ (σ'.withPending σ.draft.pending)

/-- A check under some settings that keeps a relation. -/
structure Along (settings : CheckSettings) (R : State → State → Prop) (x : Check α) : Prop where
  run : ∀ {site σ a σ'}, site.settings = settings → x site σ = .ok (a, σ') → R σ σ'

variable {settings : CheckSettings} {R : State → State → Prop}

namespace Along

variable {x : Check α}

theorem apart (hR : Coarse R) (hx : Apart x) : Along settings R x := ⟨fun _ h => hR.beside (hx.run h)⟩

theorem pure (hR : Coarse R) (a : α) : Along settings R (Pure.pure a) := .apart hR (.pure a)

theorem reject (hR : Coarse R) (span : Span) (r : Rejection) : Along settings R (Check.reject span r : Check α) :=
  .apart hR (.reject span r)

theorem bind (hR : Coarse R) {f : α → Check β} (hx : Along settings R x) (hf : ∀ a, Along settings R (f a)) :
    Along settings R (x >>= f) := by
  refine ⟨fun hsite h => ?_⟩
  obtain ⟨a, σ₁, hrun, hrest⟩ := bind_ok.mp h
  exact hR.trans (hx.run hsite hrun) ((hf a).run hsite hrest)

/-- A check outside of modules comes first. -/
theorem after (hR : Coarse R) {f : α → Check β} (hx : Apart x) (hf : ∀ a, Along settings R (f a)) :
    Along settings R (x >>= f) := .bind hR (.apart hR hx) hf

/-- What is read first changes nothing. -/
theorem reading (hR : Coarse R) {f : α → Check β} (hx : Reads x) (hf : ∀ a, Along settings R (f a)) :
    Along settings R (x >>= f) := .after hR (.of_reads hx) hf

theorem withReader {f : Site → Site} (hf : ∀ s, (f s).settings = s.settings) (hx : Along settings R x) :
    Along settings R (MonadWithReader.withReader f x) :=
  ⟨fun {site _ _ _} hsite h => hx.run ((hf site).trans hsite) (withReader_ok.mp h)⟩

theorem inScope (hR : Coarse R) (hx : Along settings R x) : Along settings R (inScope x) := by
  have hpush : Apart (modifyDraft fun d => { d with scopes := d.scopes.push }) := .redraft fun _ => rfl
  have hpop : Apart (modifyDraft fun d => { d with scopes := d.scopes.pop }) := .redraft fun _ => rfl
  exact .after hR hpush fun _ => .bind hR hx fun a => .after hR hpop fun _ => .pure hR a

theorem collecting (hR : Coarse R) (hx : Along settings R x) : Along settings R (collecting x) := by
  refine ⟨fun hsite h => ?_⟩
  obtain ⟨σ₁, hrun, -, rfl⟩ := collecting_ok h
  exact hR.pending (hx.run hsite hrun)

end Along

theorem along_nested (hR : Coarse R) {x : Check (Option Stmt)} (span : Span) (hx : Along settings R x) :
    Along settings R (nested span x) :=
  .bind hR (hx.collecting hR) fun _ => .pure hR _

theorem along_nestedScoped (hR : Coarse R) {x : Check (Option Stmt)} (span : Span) (hx : Along settings R x) :
    Along settings R (nestedScoped span x) := (along_nested hR span hx).inScope hR

theorem along_otherwise (hR : Coarse R) {x : Check (Option Stmt)} (s : Stmt) (span : Span) (hx : Along settings R x) :
    Along settings R (unlessAbsent s (nestedScoped span x)) := by
  unfold unlessAbsent
  split
  · exact .pure hR _
  · exact along_nestedScoped hR span hx

theorem along_counted (hR : Coarse R) {x : Check Stmt} (name : Text) (id : Int) (t : Ty) (hx : Along settings R x) :
    Along settings R (counted name id t x) :=
  .inScope hR (.after hR (apart_variableId _) fun _ => .after hR (apart_declareLocal _ _ _) fun _ =>
    .bind hR (.withReader (fun _ => rfl) hx) fun _ => .pure hR _)

theorem apart_rangeLoop (span : Span) (h : RangeHead) (t : Ty) (body : Stmt) : Apart (rangeLoop span h t body) := by
  unfold rangeLoop
  split
  · refine .after .read fun site => ?_
    split
    · exact apart_supplied _
    · exact .pure _
  · exact .pure _

theorem apart_eachLoop (span : Span) (h : EachHead) (body : Stmt) : Apart (eachLoop span h body) := by
  unfold eachLoop
  split
  · refine .after .read fun site => ?_
    split
    · exact apart_supplied _
    · exact .pure _
  · exact .pure _

theorem along_importSymbols (hR : Coarse R) {load : Loader} (hload : ∀ name span, Along settings R (load name span))
    (span : Span) (name : Text) (items : List ImportItem) :
    Along settings R (importSymbols load span name items) := by
  refine .reading hR (reads_requireModuleScope _ _) fun _ => .bind hR (hload name span) fun r => .apart hR ?_
  split
  · have missing : Apart (items.forM fun item =>
        declare (if item.rename.isEmpty then item.name else item.rename) item.span .unresolved) :=
      .forM fun item => apart_declare _ _ _
    split
    · exact .bind (.redraft fun _ => rfl) fun _ => missing
    · exact missing
  · refine .bind (.redraft (fun d => ?_) fun d => ?_) fun _ => ?_
    · split <;> rfl
    · split <;> exact List.Subset.refl _
    split
    · exact .forM fun x => apart_declare _ _ _
    · exact apart_declareItems _ _ _

theorem along_enclosed (hR : Coarse R) {x : Check (List Stmt)} (span : Span) (h : FnHead) (hx : Along settings R x) :
    Along settings R (enclosed span h x) := by
  refine .after hR (apart_declareFunction span h) fun head => .withReader (fun _ => rfl) (.inScope hR ?_)
  refine .after hR (apart_declareParams _ _) fun params => .bind hR hx fun body => ?_
  dsimp only
  split
  · exact .reading hR (reads_checkEntryPoint _ _ _) fun _ => .pure hR _
  · exact .pure hR _

section

variable {load : Loader}

mutual

/-- What loaders keep, all statements keep. -/
theorem along_statement (hR : Coarse R) (hload : ∀ name span, Along settings R (load name span)) (s : Stmt) :
    Along settings R (statement load s) := by
  cases s with
  | absent => exact .reading hR (reads_requireFunction _) fun _ => .reject hR _ _
  | importFrom span name items => exact .bind hR (along_importSymbols hR hload span name items) fun _ => .pure hR _
  | option span d => exact .after hR (apart_declareOption span d) fun _ => .pure hR _
  | const span d => exact .after hR (apart_declareConst span d) fun _ => .pure hR _
  | «alias» span d => exact .after hR (apart_declareAlias span d) fun _ => .pure hR _
  | struct span d => exact .after hR (apart_declareStruct span d) fun _ => .pure hR _
  | external span set vars => exact .after hR (apart_declareExternals span set vars) fun _ => .pure hR _
  | function span h body => exact along_enclosed hR span h (along_statements hR hload body)
  | conditional span c body =>
    refine .after hR (apart_expression c) fun cond => .reading hR (reads_constantCondition cond) fun known => ?_
    split
    · exact along_statement hR hload body
    · exact .pure hR _
    · exact .bind hR (.withReader (fun _ => rfl) (along_statement hR hload body)) fun _ => .pure hR _
  | multi span body => exact .bind hR (along_statements hR hload body) fun _ => .pure hR _
  | noOp span => exact .pure hR _
  | «scoped» span body =>
    exact .reading hR (reads_requireFunction span) fun _ =>
      .bind hR (along_nestedScoped hR _ (along_statement hR hload body)) fun _ => .pure hR _
  | expr span e =>
    exact .reading hR (reads_requireFunction span) fun _ => .after hR (apart_expression e) fun _ => .pure hR _
  | letVar span d =>
    exact .reading hR (reads_requireFunction span) fun _ => .after hR (apart_declareVariable span d) fun _ =>
      .pure hR _
  | branch span isConst arms other =>
    have hother := along_otherwise hR other other.span (along_statement hR hload other)
    cases isConst with
    | false =>
      refine .reading hR (reads_requireFunction span) fun _ => .bind hR (along_branchArms hR hload arms) fun arms' => ?_
      refine .bind hR hother fun other' => .reading hR .read fun site => ?_
      split <;> exact .pure hR _
    | true =>
      refine .reading hR (reads_requireFunction span) fun _ => .after hR (apart_constantConditions arms) fun conds => ?_
      split
      · split
        · exact along_selectedBody hR hload _ arms
        split
        · exact .pure hR _
        · exact .bind hR (along_nestedScoped hR _ (along_statement hR hload other)) fun _ => .pure hR _
      · exact .withReader (fun _ => rfl) (.bind hR (along_armBodies hR hload arms) fun bodies =>
          .bind hR hother fun _ => .pure hR _)
  | loop span c u body =>
    refine .reading hR (reads_requireFunction span) fun _ => .after hR ?_ fun cond =>
      .after hR (apart_unrollAttr u) fun u' => ?_
    · exact .withReader (.bind (apart_expression c) fun cond => .after (reads_requireBool _ _) fun _ => .pure _)
    · exact .bind hR (.withReader (fun _ => rfl) (along_nestedScoped hR _ (along_statement hR hload body))) fun _ =>
        .pure hR _
  | forRange span h body =>
    refine .reading hR (reads_requireFunction span) fun _ => .after hR (apart_rangeHead h) fun head => ?_
    exact .bind hR (along_counted hR _ _ _ (along_nested hR _ (along_statement hR hload body))) fun r =>
      .after hR (apart_rangeLoop span _ _ r.2) fun _ => .pure hR _
  | forEach span h body =>
    refine .reading hR (reads_requireFunction span) fun _ => .after hR (apart_eachHead h) fun head => ?_
    exact .bind hR (along_counted hR _ _ _ (along_nested hR _ (along_statement hR hload body))) fun r =>
      .after hR (apart_eachLoop span _ r.2) fun _ => .pure hR _
  | returnWith span e =>
    exact .reading hR (reads_requireFunction span) fun f => .after hR (apart_returned span f e) fun _ => .pure hR _
  | discard span => exact .reading hR (reads_requireFunction span) fun _ => .pure hR _
  | breakLoop span | continueLoop span =>
    exact .reading hR (reads_requireFunction span) fun _ => .reading hR (reads_requireLoop span _) fun _ => .pure hR _

theorem along_statements (hR : Coarse R) (hload : ∀ name span, Along settings R (load name span)) (ss : List Stmt) :
    Along settings R (statements load ss) := by
  cases ss with
  | nil => exact .pure hR _
  | cons s ss =>
    exact .bind hR ((along_statement hR hload s).collecting hR) fun _ =>
      .bind hR (along_statements hR hload ss) fun _ => .pure hR _

theorem along_branchArms (hR : Coarse R) (hload : ∀ name span, Along settings R (load name span))
    (arms : List (Expr × Stmt)) : Along settings R (branchArms load arms) := by
  match arms with
  | [] => exact .pure hR _
  | (c, s) :: arms =>
    refine .after hR (apart_expression c) fun cond => .reading hR (reads_requireBool _ _) fun _ => ?_
    exact .bind hR (along_nestedScoped hR _ (along_statement hR hload s)) fun _ =>
      .bind hR (along_branchArms hR hload arms) fun _ => .pure hR _

theorem along_armBodies (hR : Coarse R) (hload : ∀ name span, Along settings R (load name span))
    (arms : List (Expr × Stmt)) : Along settings R (armBodies load arms) := by
  match arms with
  | [] => exact .pure hR _
  | (c, s) :: arms =>
    exact .bind hR (along_nestedScoped hR _ (along_statement hR hload s)) fun _ =>
      .bind hR (along_armBodies hR hload arms) fun _ => .pure hR _

theorem along_selectedBody (hR : Coarse R) (hload : ∀ name span, Along settings R (load name span)) (n : Nat)
    (arms : List (Expr × Stmt)) : Along settings R (selectedBody load n arms) := by
  match n, arms with
  | 0, [] | n + 1, [] => exact .pure hR _
  | 0, (c, s) :: arms => exact .bind hR (along_nestedScoped hR _ (along_statement hR hload s)) fun _ => .pure hR _
  | n + 1, (c, s) :: arms => exact along_selectedBody hR hload n arms

end

end

theorem along_body (hR : Coarse R) {load : Loader} (hload : ∀ name span, Along settings R (load name span))
    (m : Module) : Along settings R (body load m) := by
  unfold body
  simp only [reject_bind]
  split
  · exact .reject hR _ _
  · exact .bind hR (.inScope hR (along_statements hR hload _)) fun _ => .reading hR .getDraft fun _ => .pure hR _

end Shading.Check

namespace Shading.Check

open Stmt (leaves leavesAll leavesAll_append)

/-- What becomes of a declaration when it is checked, and what the check of its parts does. -/
inductive Declares (load : Loader) (site : Site) : State → Stmt → Stmt → State → Prop
  | importFrom {σ σ' : State} {span : Span} {name : Text} {items : List ImportItem} {u : Unit} :
      importSymbols load span name items site σ = .ok (u, σ') →
      Declares load site σ (.importFrom span name items) (.importFrom span name items) σ'
  | option {σ σ' : State} {span : Span} {d d' : OptionDecl} : declareOption span d site σ = .ok (d', σ') →
      Declares load site σ (.option span d) (.option span d') σ'
  | const {σ σ' : State} {span : Span} {d d' : ConstDecl} : declareConst span d site σ = .ok (d', σ') →
      Declares load site σ (.const span d) (.const span d') σ'
  | alias {σ σ' : State} {span : Span} {d d' : AliasDecl} : declareAlias span d site σ = .ok (d', σ') →
      Declares load site σ (.alias span d) (.alias span d') σ'
  | struct {σ σ' : State} {span : Span} {d d' : StructDecl} : declareStruct span d site σ = .ok (d', σ') →
      Declares load site σ (.struct span d) (.struct span d') σ'
  | external {σ σ' : State} {span : Span} {set set' : Attr UInt32} {vars vars' : List External} :
      declareExternals span set vars site σ = .ok ((set', vars'), σ') →
      Declares load site σ (.external span set vars) (.external span set' vars') σ'
  | function {σ σ₁ σ₂ σ₃ σ' : State} {span : Span} {h h' : FnHead} {f : Function} {params : List FnParam}
      {body body' : List Stmt} : declareFunction span h site σ = .ok ((h', f), σ₁) → σ₁.Beside σ₂ →
      statements load body { site with function := some f } σ₂ = .ok (body', σ₃) → σ₃.Beside σ' →
      Declares load site σ (.function span h body) (.function span { h' with params } body') σ'

/-- The declarations of a module are checked one after the other, between two states. Some are left out because of
their conditions. What becomes of the others is marked if it stands under a condition that is not known yet. -/
inductive Walk (settings : CheckSettings) (R : State → State → Prop) (load : Loader) :
    State → List (Bool × Stmt) → List (Bool × Stmt) → State → Prop
  | between {σ σ' : State} : R σ σ' → Walk settings R load σ [] [] σ'
  | leaveOut {σ : State} (ls : List (Bool × Stmt)) : Walk settings R load σ ls [] σ
  | declaration {site : Site} {σ σ' : State} {s s' : Stmt} (c : Bool) : site.settings = settings →
      Declares load site σ s s' σ' → R σ σ' → Walk settings R load σ [(c, s)] [(site.conditional, s')] σ'
  | append {σ σ₁ σ' : State} {ls ls' rs rs' : List (Bool × Stmt)} : Walk settings R load σ ls rs σ₁ →
      Walk settings R load σ₁ ls' rs' σ' → Walk settings R load σ (ls ++ ls') (rs ++ rs') σ'

variable {settings : CheckSettings} {R : State → State → Prop} {load : Loader}

namespace Walk

variable {σ σ₁ σ' : State} {ls rs : List (Bool × Stmt)}

theorem after (hR : R σ σ₁) (h : Walk settings R load σ₁ ls rs σ') : Walk settings R load σ ls rs σ' :=
  .append (.between hR) h

theorem before (h : Walk settings R load σ ls rs σ₁) (hR : R σ₁ σ') : Walk settings R load σ ls rs σ' := by
  have hwalk := Walk.append h (.between hR)
  rwa [List.append_nil, List.append_nil] at hwalk

end Walk

/-- What is to stand before the current statement are declarations of variables, apart from what was to stand there
before. -/
def State.Hoists (σ σ' : State) : Prop := ∀ s ∈ σ'.draft.pending, s ∈ σ.draft.pending ∨ s.IsVariable

theorem coarse_hoists : Coarse State.Hoists := by
  refine ⟨fun _ _ => .inl, fun h h' s hs => ?_, State.Beside.pending, fun _ _ => .inl⟩
  rcases h' s hs with hs | hs
  · exact h s hs
  · exact .inr hs

/-- A loader that keeps a relation, for which it does not matter what is to stand before the current statement. -/
structure LoadsAlong (settings : CheckSettings) (R : State → State → Prop) (load : Loader) : Prop where
  coarse : Coarse R
  pending : ∀ σ ps, R σ (State.withPending σ ps)
  along : ∀ name span, Along settings R (load name span)
  hoists : ∀ name span, Along settings State.Hoists (load name span)

/-- A variable that stands before a statement is no declaration of the module. -/
theorem leavesAll_pending {c : Bool} {ps : List Stmt} (h : ∀ p ∈ ps, p.IsVariable) : leavesAll c ps = [] := by
  induction ps with
  | nil => rfl
  | cons p ps ih =>
    rw [List.forall_mem_cons] at h
    obtain ⟨⟨span, d, rfl⟩, hps⟩ := h
    rw [leavesAll, ih hps]
    rfl

/-- Most statements stand inside functions only. -/
theorem requireFunction_bind {α : Type} {span : Span} {f : Function → Check α} {site : Site} {σ σ' : State} {a : α}
    (hsite : site.function = none) (h : (requireFunction span >>= f) site σ = .ok (a, σ')) : False := by
  obtain ⟨g, σ₂, hrequire, -⟩ := bind_ok.mp h
  obtain ⟨s, σ₁, hs, hrun⟩ := bind_ok.mp hrequire
  obtain ⟨rfl, rfl⟩ := read_ok.mp hs
  rw [hsite] at hrun
  exact reject_ok.mp hrun

section

variable {site : Site} {σ σ' : State}

/-- A function whose head has been checked. -/
theorem declares_function {span : Span} {h : FnHead} {body : List Stmt} {r : Option Stmt}
    (hrun : enclosed span h (statements load body) site σ = .ok (r, σ')) :
    ∃ s', r = some s' ∧ Declares load site σ (.function span h body) s' σ' := by
  obtain ⟨⟨h', f⟩, σ₁, hhead, hrun⟩ := bind_ok.mp hrun
  obtain ⟨u, σ₂, hpush, hrun⟩ := bind_ok.mp (withReader_ok.mp hrun)
  obtain ⟨a, σ₃, hact, hrun⟩ := bind_ok.mp hrun
  obtain ⟨v, σ₄, hpop, hpure⟩ := bind_ok.mp hrun
  obtain ⟨rfl, rfl⟩ := pure_ok.mp hpure
  obtain ⟨params, σ₅, hparams, hact⟩ := bind_ok.mp hact
  obtain ⟨body', σ₆, hbody, hact⟩ := bind_ok.mp hact
  have hpushed : Apart (modifyDraft fun d => { d with scopes := d.scopes.push }) := .redraft fun _ => rfl
  have hpopped : Apart (modifyDraft fun d => { d with scopes := d.scopes.pop }) := .redraft fun _ => rfl
  have hbefore : σ₁.Beside σ₅ := (hpushed.run hpush).trans ((apart_declareParams _ _).run hparams)
  have hafter : σ₆ = σ₃ ∧ r = some (.function span { h' with params } body') := by
    dsimp only at hact
    split at hact
    · obtain ⟨w, σ₇, hentry, hpure⟩ := bind_ok.mp hact
      obtain ⟨rfl, rfl⟩ := pure_ok.mp hpure
      exact ⟨((reads_checkEntryPoint _ _ _).run hentry).symm, rfl⟩
    · obtain ⟨rfl, rfl⟩ := pure_ok.mp hact
      exact ⟨rfl, rfl⟩
  obtain ⟨rfl, rfl⟩ := hafter
  exact ⟨_, rfl, .function hhead hbefore hbody (hpopped.run hpop)⟩

end

mutual

/-- Outside functions, the check of a statement is a walk over its declarations. -/
theorem walk_statement (hload : LoadsAlong settings R load) (s : Stmt) {site : Site} {σ σ' : State}
    {r : Option Stmt} (hsite : site.settings = settings) (hfunction : site.function = none) (c : Bool)
    (h : statement load s site σ = .ok (r, σ')) :
    Walk settings R load σ (s.leaves c) (leavesAll site.conditional r.toList) σ' := by
  have hkept : R σ σ' := (along_statement hload.coarse hload.along s).run hsite h
  cases s with
  | importFrom span name items =>
    obtain ⟨u, σ₁, hrun, hpure⟩ := bind_ok.mp h
    obtain ⟨rfl, rfl⟩ := pure_ok.mp hpure
    exact .declaration c hsite (.importFrom hrun) hkept
  | option span d =>
    obtain ⟨d', σ₁, hrun, hpure⟩ := bind_ok.mp h
    obtain ⟨rfl, rfl⟩ := pure_ok.mp hpure
    exact .declaration c hsite (.option hrun) hkept
  | const span d =>
    obtain ⟨d', σ₁, hrun, hpure⟩ := bind_ok.mp h
    obtain ⟨rfl, rfl⟩ := pure_ok.mp hpure
    exact .declaration c hsite (.const hrun) hkept
  | «alias» span d =>
    obtain ⟨d', σ₁, hrun, hpure⟩ := bind_ok.mp h
    obtain ⟨rfl, rfl⟩ := pure_ok.mp hpure
    exact .declaration c hsite (.alias hrun) hkept
  | struct span d =>
    obtain ⟨d', σ₁, hrun, hpure⟩ := bind_ok.mp h
    obtain ⟨rfl, rfl⟩ := pure_ok.mp hpure
    exact .declaration c hsite (.struct hrun) hkept
  | external span set vars =>
    obtain ⟨d', σ₁, hrun, hpure⟩ := bind_ok.mp h
    obtain ⟨rfl, rfl⟩ := pure_ok.mp hpure
    exact .declaration c hsite (.external hrun) hkept
  | function span head body =>
    obtain ⟨s', rfl, hdeclares⟩ := declares_function h
    cases hdeclares with
    | function hhead hbefore hbody hafter => exact .declaration c hsite (.function hhead hbefore hbody hafter) hkept
  | conditional span cond body =>
    obtain ⟨e, σ₁, he, h⟩ := bind_ok.mp h
    obtain ⟨known, σ₂, hknown, h⟩ := bind_ok.mp h
    have hbefore : R σ σ₂ :=
      hload.coarse.beside ((reads_constantCondition e).run hknown ▸ (apart_expression cond).run he)
    split at h
    · exact .after hbefore (walk_statement hload body hsite hfunction true h)
    · obtain ⟨rfl, rfl⟩ := pure_ok.mp h
      exact .after hbefore (.leaveOut _)
    · obtain ⟨body', σ₃, hbody, hpure⟩ := bind_ok.mp h
      obtain ⟨rfl, rfl⟩ := pure_ok.mp hpure
      have hunknown : (unknownSite site).settings = settings := hsite
      have hwalk := walk_statement hload body hunknown hfunction true (withReader_ok.mp hbody)
      refine .after hbefore ?_
      cases body' <;> exact hwalk
  | multi span body =>
    obtain ⟨rs, σ₁, hbody, hpure⟩ := bind_ok.mp h
    obtain ⟨rfl, rfl⟩ := pure_ok.mp hpure
    rw [Option.toList_some, leavesAll, leavesAll, List.append_nil]
    exact walk_statements hload body hsite hfunction c hbody
  | noOp span =>
    obtain ⟨rfl, rfl⟩ := pure_ok.mp h
    exact .leaveOut []
  | branch span isConst => cases isConst <;> exact (requireFunction_bind hfunction h).elim
  | absent | «scoped» | expr | letVar | loop | forRange | forEach | returnWith | discard | breakLoop | continueLoop =>
    exact (requireFunction_bind hfunction h).elim

theorem walk_statements (hload : LoadsAlong settings R load) (ss : List Stmt) {rs : List Stmt} {site : Site}
    {σ σ' : State} (hsite : site.settings = settings) (hfunction : site.function = none) (c : Bool)
    (h : statements load ss site σ = .ok (rs, σ')) :
    Walk settings R load σ (leavesAll c ss) (leavesAll site.conditional rs) σ' := by
  cases ss with
  | nil =>
    obtain ⟨rfl, rfl⟩ := pure_ok.mp h
    exact .leaveOut []
  | cons s ss =>
    obtain ⟨⟨pending, r⟩, σ₁, hcollect, h⟩ := bind_ok.mp h
    obtain ⟨rest, σ₂, hrest, hpure⟩ := bind_ok.mp h
    obtain ⟨rfl, rfl⟩ := pure_ok.mp hpure
    obtain ⟨σ₃, hrun, hpending, rfl⟩ := collecting_ok hcollect
    replace hpending : pending = σ₃.draft.pending := hpending
    have hvariables : ∀ p ∈ pending, p.IsVariable := by
      intro p hp
      rw [hpending] at hp
      rcases (along_statement coarse_hoists hload.hoists s).run hsite hrun p hp with hold | hp
      · cases hold
      · exact hp
    have hfirst := (walk_statement hload s hsite hfunction c hrun).before (hload.pending σ₃ σ.draft.pending)
    have hwalk := (hfirst.after (hload.pending σ [])).append (walk_statements hload ss hsite hfunction c hrest)
    rw [leavesAll, leavesAll_append, leavesAll_append, leavesAll_pending hvariables, List.nil_append]
    exact hwalk

end

theorem leaves_rootStmt (m : Module) (c : Bool) : m.rootStmt.leaves c = leavesAll c (m.root.getD {}).body := by
  unfold Module.rootStmt
  cases m.root <;> rfl

/-- The check of a module is a walk over its declarations. -/
theorem walk_body (hload : LoadsAlong settings R load) {m r : Module} {site : Site} {σ σ' : State}
    (hsite : site.settings = settings) (hfunction : site.function = none) (c : Bool)
    (h : body load m site σ = .ok (r, σ')) :
    Walk settings R load σ (m.rootStmt.leaves c) (r.rootStmt.leaves site.conditional) σ' := by
  unfold body at h
  simp only [reject_bind] at h
  split at h
  · exact (reject_ok.mp h).elim
  obtain ⟨ss, σ₁, hscope, h⟩ := bind_ok.mp h
  obtain ⟨d, σ₂, hdraft, hpure⟩ := bind_ok.mp h
  obtain ⟨rfl, rfl⟩ := getDraft_ok.mp hdraft
  obtain ⟨rfl, rfl⟩ := pure_ok.mp hpure
  obtain ⟨u, σ₃, hpush, hscope⟩ := bind_ok.mp hscope
  obtain ⟨ts, σ₄, hrun, hscope⟩ := bind_ok.mp hscope
  obtain ⟨v, σ₅, hpop, hpure⟩ := bind_ok.mp hscope
  obtain ⟨rfl, rfl⟩ := pure_ok.mp hpure
  have hpushed : Apart (modifyDraft fun d => { d with scopes := d.scopes.push }) := .redraft fun _ => rfl
  have hpopped : Apart (modifyDraft fun d => { d with scopes := d.scopes.pop }) := .redraft fun _ => rfl
  rw [leaves_rootStmt, leaves_rootStmt]
  have hwalk := walk_statements hload _ hsite hfunction c hrun
  exact (hwalk.after (hload.coarse.beside (hpushed.run hpush))).before (hload.coarse.beside (hpopped.run hpop))

/-- Structures are known under their numbers. -/
def State.Numbered (σ : State) : Prop := ∀ x ∈ σ.session.structs, x.2.record.id = x.1

/-- What a check leaves as it is, and what it adds: bindings, structures under their numbers, and modules that are
good. -/
structure State.Grows (Good : List (Text × Module) → Text → Module → Prop) (σ σ' : State) : Prop where
  previous : σ'.session.previous = σ.session.previous
  bindings : σ.draft.bindings ⊆ σ'.draft.bindings
  structs : σ.Numbered → σ'.Numbered
  finished : σ.Numbered → ∀ f ∈ σ'.session.finished,
    f ∈ σ.session.finished ∨ Good σ.session.previous f.1 f.2.result

variable {Good : List (Text × Module) → Text → Module → Prop}

theorem State.Grows.of_same {σ σ' : State} (hprevious : σ'.session.previous = σ.session.previous)
    (hbindings : σ'.draft.bindings = σ.draft.bindings) (hstructs : σ'.session.structs = σ.session.structs)
    (hfinished : σ'.session.finished = σ.session.finished) : σ.Grows Good σ' :=
  ⟨hprevious, fun _ hb => hbindings ▸ hb, fun hσ x hx => hσ x (hstructs ▸ hx), fun _ _ hf => .inl (hfinished ▸ hf)⟩

theorem State.Grows.trans {σ σ₁ σ₂ : State} (h : σ.Grows Good σ₁) (h' : σ₁.Grows Good σ₂) : σ.Grows Good σ₂ := by
  refine ⟨h'.previous.trans h.previous, fun b hb => h'.bindings (h.bindings hb), fun hσ => h'.structs (h.structs hσ),
    fun hσ f hf => ?_⟩
  rcases h'.finished (h.structs hσ) f hf with hf | hf
  · exact h.finished hσ f hf
  · exact .inr (h.previous ▸ hf)

theorem State.Grows.of_beside {σ σ' : State} (h : σ.Beside σ') : σ.Grows Good σ' := by
  refine ⟨h.modules.previous, h.bindings, fun hσ x hx => ?_, fun _ f hf => .inl (h.modules.finished ▸ hf)⟩
  rcases h.structs x hx with hx | hx
  · exact hσ x hx
  · exact hx

theorem State.Grows.withPending (σ : State) (ps : List Stmt) : σ.Grows Good (σ.withPending ps) := .of_same rfl rfl rfl rfl

theorem coarse_grows : Coarse (State.Grows Good) := by
  refine ⟨fun _ => .of_same rfl rfl rfl rfl, .trans, .of_beside, fun {σ σ'} h => ?_⟩
  exact (State.Grows.withPending σ []).trans (h.trans (.withPending σ' _))

/-- What an import does: nothing if the module is known to be done or missing, or else it is noted as missing or
checked. -/
theorem importing_ok {inner : Loader} {name : Text} {span : Span} {site : Site} {σ σ' : State} {r : Option Exported}
    (h : importing inner name span site σ = .ok (r, σ')) :
    σ' = σ ∨ σ' = { σ with session := { σ.session with missing := name :: σ.session.missing } } ∨
      ∃ m e, Finds site.settings σ.session.previous name m ∧ separately name (body inner m) site σ = .ok (e, σ') := by
  obtain ⟨s, σ₁, hs, h⟩ := bind_ok.mp h
  obtain ⟨rfl, rfl⟩ := getSession_ok.mp hs
  simp only [reject_bind] at h
  split at h
  · exact .inl (pure_ok.mp h).2
  cases hlookup : σ₁.session.finished.lookup name with
  | some e =>
    simp only [hlookup] at h
    exact .inl (pure_ok.mp h).2
  | none =>
    simp only [hlookup] at h
    split at h
    · exact (reject_ok.mp h).elim
    obtain ⟨found, σ₂, hfind, h⟩ := bind_ok.mp h
    have hsame := (reads_find name).run hfind
    subst hsame
    cases found with
    | ok m =>
      obtain ⟨e, σ₃, hrun, hpure⟩ := bind_ok.mp h
      obtain ⟨-, rfl⟩ := pure_ok.mp hpure
      exact .inr (.inr ⟨m, e, find_finds hfind, hrun⟩)
    | error reason =>
      obtain ⟨s, σ₃, hsite, hrest⟩ := bind_ok.mp h
      obtain ⟨rfl, rfl⟩ := read_ok.mp hsite
      split at hrest
      · exact (reject_ok.mp hrest).elim
      · obtain ⟨u, σ₄, hmodify, hpure⟩ := bind_ok.mp hrest
        obtain ⟨-, rfl⟩ := pure_ok.mp hpure
        exact .inr (.inl (modifySession_ok.mp hmodify))

/-- The check of each imported module makes a good one. -/
def MakesGood (settings : CheckSettings) (Good : List (Text × Module) → Text → Module → Prop) : Prop :=
  ∀ load name m r σ σ', LoadsAlong settings (State.Grows Good) load → Finds settings σ.session.previous name m →
    σ.Numbered → σ.draft = {} → body load m { settings } σ = .ok (r, σ') → Good σ.session.previous name r

/-- Loaders add good modules only. -/
theorem loadsAlong_loader (hgood : MakesGood settings Good) (depth : Nat) :
    LoadsAlong settings (State.Grows Good) (loader depth) := by
  induction depth with
  | zero =>
    exact ⟨coarse_grows, .withPending, fun _ _ => .reject coarse_grows _ _, fun _ _ => .reject coarse_hoists _ _⟩
  | succ depth ih =>
    refine ⟨coarse_grows, .withPending, fun name span => ⟨fun {site σ e σ'} hsite h => ?_⟩,
      fun name span => ⟨fun {site σ e σ'} hsite h => ?_⟩⟩
    · subst hsite
      rcases importing_ok h with rfl | rfl | ⟨m, e, hfinds, hrun⟩
      · exact coarse_grows.refl _
      · exact .of_same rfl rfl rfl rfl
      obtain ⟨r, done, hbody, rfl, rfl⟩ := separately_ok hrun
      have hsite : ({ settings := site.settings } : Site).settings = site.settings := rfl
      have hgrows := (along_body coarse_grows ih.along m).run hsite hbody
      refine ⟨hgrows.previous, List.Subset.refl _, hgrows.structs, fun hσ f hf => ?_⟩
      rcases List.mem_append.mp hf with hf | hf
      · exact hgrows.finished hσ f hf
      · rw [List.mem_singleton.mp hf]
        exact .inr (hgood _ name m r { session := σ.session.enter name } done ih hfinds hσ rfl hbody)
    · rcases importing_ok h with rfl | rfl | ⟨m, e, hfinds, hrun⟩
      · exact coarse_hoists.refl _
      · exact fun _ => .inl
      obtain ⟨r, done, hbody, rfl, rfl⟩ := separately_ok hrun
      exact fun _ => .inl

end Shading.Check

-- The check of a module and of those that it imports, as walks over their declarations.
namespace Shading

namespace Check

theorem Session.structs_reserve (s : Session) (m : Module) : (s.reserve m).structs = s.structs := by
  have hvars {α : Type} (id : α → Int) (as : List α) (s : Session) :
      (as.foldl (fun s a => s.reserveVar (id a)) s).structs = s.structs := by
    induction as generalizing s with
    | nil => rfl
    | cons a as ih => exact ih _
  have hstmt (s : Session) (x : Stmt) : (s.reserveStmt x).structs = s.structs := by
    cases x with
    | function span h body => exact hvars FnParam.id h.params _
    | external span set vars => exact hvars External.id vars s
    | _ => rfl
  have hnodes (s : Session) (m : Module) : (s.reserveNodes m).structs = s.structs := by
    unfold reserveNodes
    generalize m.rootStmt.nodes.filterMap Node.stmt? = xs
    induction xs generalizing s with
    | nil => rfl
    | cons x xs ih => exact (ih _).trans (hstmt s x)
  have hmodules (is : List (Text × Module)) (s : Session) :
      (is.foldl (fun s i => reserveNodes { s with previous := i :: s.previous } i.2) s).structs = s.structs := by
    induction is generalizing s with
    | nil => rfl
    | cons i is ih => exact (ih _).trans (hnodes _ _)
  exact (hmodules _ _).trans (hnodes s m)

variable {settings : CheckSettings} {Good : List (Text × Module) → Text → Module → Prop} {m r : Module}

/-- A checked module and those that it imports: the module is walked over, and the others are good. -/
theorem check_walk (hgood : MakesGood settings Good) (h : m.check settings = .ok r) :
    (∃ load σ, LoadsAlong settings (State.Grows Good) load ∧ (State.mk m.opened {}).Numbered ∧
      Walk settings (State.Grows Good) load { session := m.opened } m.leaves r.leaves σ) ∧
      ∀ x ∈ r.imported, Good m.opened.previous x.1 x.2 := by
  rw [Module.check_eq, Module.checkWith] at h
  cases hrun : body (loader (m.importDepth settings)) m { settings } { session := m.opened } with
  | error e =>
    rw [hrun] at h
    cases h
  | ok x =>
    rw [hrun] at h
    cases h
    have hload := loadsAlong_loader hgood (m.importDepth settings)
    have hsite : ({ settings } : Site).settings = settings := rfl
    have hnumbered : (State.mk m.opened {}).Numbered := by
      intro y hy
      change y ∈ (Session.reserve {} m).structs at hy
      rw [Session.structs_reserve] at hy
      cases hy
    have hgrows := (along_body coarse_grows hload.along m).run hsite hrun
    have hwalk := walk_body hload hsite rfl false hrun
    refine ⟨⟨_, _, hload, hnumbered, hwalk⟩, fun y hy => ?_⟩
    obtain ⟨f, hf, rfl⟩ := List.mem_map.mp hy
    rcases hgrows.finished hnumbered f hf with hold | hf
    · have hfinished : m.opened.finished = [] := (Session.reserve_modules {} m).1
      rw [hfinished] at hold
      cases hold
    · exact hf

end Check

end Shading
