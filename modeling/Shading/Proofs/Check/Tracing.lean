import Shading.Check
import Shading.Proofs.Check.Apart
import Shading.Proofs.Check.Gathering
import Shading.Proofs.Check.Statement

/-! What the check of a module does with other modules: it imports those that the import statements of its
result name, in their order, and nothing else. Loaders that agree on these imports lead to the same check. -/
namespace Shading.Check

open Stmt (imports plainImports plainImportsAll)

variable {α β : Type}

/-- The module that a name stands for: one that is known from before, or else the one that the resolver has. -/
def Finds (settings : CheckSettings) (previous : List (Text × Module)) (name : Text) (m : Module) : Prop :=
  previous.lookup name = some m ∨
    previous.lookup name = none ∧ ∃ r, settings.resolver = some r ∧ r.find name = .ok (some m)

namespace Session

/-- The session in which an imported module is checked. -/
def enter (s : Session) (name : Text) : Session := { s with inProgress := name :: s.inProgress }

/-- The session after an imported module has been checked. -/
def complete (s : Session) (name : Text) (e : Exported) : Session :=
  { s with inProgress := s.inProgress.erase name, finished := s.finished ++ [(name, e)] }

/-- Modules are imported one after the other, between two sessions. A module is checked where it is imported for
the first time, after what it imports itself. The second list has the modules that have been checked, in the order
in which they are done. -/
inductive Imports (settings : CheckSettings) : Session → List Text → List Text → Session → Prop
  | none {s s' : Session} : s.SameModules s' → Imports settings s [] [] s'
  | append {s s' s'' : Session} {ns ms cs ds : List Text} : Imports settings s ns cs s' →
      Imports settings s' ms ds s'' → Imports settings s (ns ++ ms) (cs ++ ds) s''
  | again {s : Session} {name : Text} {e : Exported} : s.finished.lookup name = some e →
      Imports settings s [name] [] s
  | first {s : Session} {name : Text} {m r : Module} {depth : Nat} {cs : List Text} {σ : State} :
      s.finished.lookup name = .none → name ∉ s.inProgress → Finds settings s.previous name m →
      body (loader depth) m { settings } { session := s.enter name } = .ok (r, σ) → m.KeepsImports r →
      Imports settings (s.enter name) r.rootStmt.imports cs σ.session →
      Imports settings s [name] (cs ++ [name]) (σ.session.complete name ⟨r, σ.draft.exports⟩)

/-- Imports leave the modules in progress and those that are known from before as they are. -/
theorem Imports.frame {settings : CheckSettings} {s s' : Session} {ns cs : List Text} (h : Imports settings s ns cs s') :
    s'.inProgress = s.inProgress ∧ s'.previous = s.previous ∧ s'.missing = s.missing := by
  induction h with
  | none h => exact ⟨h.inProgress, h.previous, h.missing⟩
  | append _ _ ih ih' => exact ⟨ih'.1.trans ih.1, ih'.2.1.trans ih.2.1, ih'.2.2.trans ih.2.2⟩
  | again => exact ⟨rfl, rfl, rfl⟩
  | first _ _ _ _ _ _ ih =>
    obtain ⟨hprogress, hprevious, hmissing⟩ := ih
    refine ⟨?_, hprevious, hmissing⟩
    rw [complete, hprogress]
    exact List.erase_cons_head _ _

end Session

section

variable (settings : CheckSettings) (P : List Text) (V : List (Text × Module))

/-- The modules that are in progress and those that are known from before. None is missing, and nothing that is to
stand before the current statement is an import. -/
structure State.Under (σ : State) : Prop where
  inProgress : σ.session.inProgress = P
  previous : σ.session.previous = V
  missing : σ.session.missing = []
  pending : ∀ s ∈ σ.draft.pending, s.imports = []

/-- Two checks have the same result, and the names of the modules that they import are as described. -/
structure Traces (x y : Check α) (K : α → List Text → Prop) : Prop where
  agree : ∀ {site σ}, site.settings = settings → σ.Under P V → x site σ = y site σ
  run : ∀ {site σ a σ'}, site.settings = settings → σ.Under P V → x site σ = .ok (a, σ') →
    σ'.Under P V ∧ ∃ ns cs, σ.session.Imports settings ns cs σ'.session ∧ K a ns

end

variable {settings : CheckSettings} {P : List Text} {V : List (Text × Module)}

theorem State.Under.beside {σ σ' : State} (h : σ.Under P V) (hσ : σ.Beside σ') : σ'.Under P V := by
  refine ⟨hσ.modules.inProgress.trans h.inProgress, hσ.modules.previous.trans h.previous,
    hσ.modules.missing.trans h.missing, fun s hs => ?_⟩
  rcases hσ.pending s hs with hs | ⟨span, d, rfl⟩
  · exact h.pending s hs
  · exact Stmt.imports_letVar span d

/-- Two checks that agree, and go on in the same way. -/
theorem bind_agree {x y : Check α} {f g : α → Check β} {site : Site} {σ : State} (h : x site σ = y site σ)
    (hfg : ∀ {a σ₁}, x site σ = .ok (a, σ₁) → f a site σ₁ = g a site σ₁) : (x >>= f) site σ = (y >>= g) site σ := by
  change (x site σ >>= fun r => f r.1 site r.2) = (y site σ >>= fun r => g r.1 site r.2)
  rw [← h]
  cases hrun : x site σ with
  | error e => rfl
  | ok r => exact hfg hrun

namespace Traces

variable {x y : Check α} {K K' : α → List Text → Prop} {L : β → List Text → Prop}

theorem apart (hx : Apart x) : Traces settings P V x x fun _ ns => ns = [] := by
  refine ⟨fun _ _ => rfl, fun _ hunder h => ?_⟩
  have hbeside := hx.run h
  exact ⟨hunder.beside hbeside, [], [], .none hbeside.modules, rfl⟩

theorem pure {a : α} (h : K a []) : Traces settings P V (Pure.pure a) (Pure.pure a) K := by
  refine ⟨fun _ _ => rfl, fun {site σ b σ'} _ hunder hx => ?_⟩
  obtain ⟨rfl, rfl⟩ := pure_ok.mp hx
  exact ⟨hunder, [], [], .none (.refl _), h⟩

theorem reject {span : Span} {r : Rejection} : Traces settings P V (Check.reject span r) (Check.reject span r) K :=
  ⟨fun _ _ => rfl, fun _ _ h => (reject_ok.mp h).elim⟩

theorem bind {f g : α → Check β} (hx : Traces settings P V x y K)
    (hf : ∀ a ns, K a ns → Traces settings P V (f a) (g a) fun b ms => L b (ns ++ ms)) :
    Traces settings P V (x >>= f) (y >>= g) L := by
  refine ⟨fun {site σ} hsite hunder => ?_, fun {site σ b σ'} hsite hunder h => ?_⟩
  · refine bind_agree (hx.agree hsite hunder) fun hrun => ?_
    obtain ⟨hunder', ns, -, -, hK⟩ := hx.run hsite hunder hrun
    exact (hf _ ns hK).agree hsite hunder'
  · obtain ⟨a, σ₁, hrun, hrest⟩ := bind_ok.mp h
    obtain ⟨hunder₁, ns, cs, himports, hK⟩ := hx.run hsite hunder hrun
    obtain ⟨hunder', ms, ds, himports', hL⟩ := (hf a ns hK).run hsite hunder₁ hrest
    exact ⟨hunder', ns ++ ms, cs ++ ds, .append himports himports', hL⟩

/-- A check that imports nothing comes first. -/
theorem after {f g : α → Check β} (hx : Apart x) (hf : ∀ a, Traces settings P V (f a) (g a) L) :
    Traces settings P V (x >>= f) (x >>= g) L := by
  refine .bind (.apart hx) fun a ns hns => ?_
  rw [hns]
  exact hf a

/-- What is read first changes nothing. -/
theorem reading {f g : α → Check β} (hx : Reads x) (hf : ∀ a, Traces settings P V (f a) (g a) L) :
    Traces settings P V (x >>= f) (x >>= g) L := .after (.of_reads hx) hf

theorem post (hx : Traces settings P V x y K) (h : ∀ a ns, K a ns → K' a ns) : Traces settings P V x y K' := by
  refine ⟨hx.agree, fun hsite hunder hrun => ?_⟩
  obtain ⟨hunder', ns, cs, himports, hK⟩ := hx.run hsite hunder hrun
  exact ⟨hunder', ns, cs, himports, h _ _ hK⟩

theorem withReader {f : Site → Site} (hf : ∀ s, (f s).settings = s.settings) (hx : Traces settings P V x y K) :
    Traces settings P V (MonadWithReader.withReader f x) (MonadWithReader.withReader f y) K :=
  ⟨fun {site _} hsite hunder => hx.agree ((hf site).trans hsite) hunder,
    fun {site _ _ _} hsite hunder h => hx.run ((hf site).trans hsite) hunder (withReader_ok.mp h)⟩

theorem inScope (hx : Traces settings P V x y K) : Traces settings P V (inScope x) (inScope y) K := by
  have hpush : Apart (modifyDraft fun d => { d with scopes := d.scopes.push }) := .redraft fun _ => rfl
  have hpop : Apart (modifyDraft fun d => { d with scopes := d.scopes.pop }) := .redraft fun _ => rfl
  refine .after hpush fun _ => .bind hx fun a ns hK => .after hpop fun _ => .pure ?_
  rwa [List.append_nil]

/-- What has to stand before a statement is no import. -/
theorem collecting (hx : Traces settings P V x y K) :
    Traces settings P V (collecting x) (collecting y) fun r ns => (∀ s ∈ r.1, s.imports = []) ∧ K r.2 ns := by
  have hempty {σ : State} (h : σ.Under P V) : (σ.withPending []).Under P V :=
    ⟨h.inProgress, h.previous, h.missing, nofun⟩
  refine ⟨fun {site σ} hsite hunder => ?_, fun {site σ r σ'} hsite hunder h => ?_⟩
  · have hrun (z : Check α) : Check.collecting z site σ = (z site (σ.withPending []) >>= fun r =>
        .ok ((r.2.draft.pending, r.1), r.2.withPending σ.draft.pending)) := rfl
    rw [hrun x, hrun y, hx.agree hsite (hempty hunder)]
  · obtain ⟨σ₁, hrun, hpending, rfl⟩ := collecting_ok h
    obtain ⟨hunder₁, ns, cs, himports, hK⟩ := hx.run hsite (hempty hunder) hrun
    refine ⟨⟨hunder₁.inProgress, hunder₁.previous, hunder₁.missing, hunder.pending⟩, ns, cs, himports, ?_, hK⟩
    rw [hpending]
    exact hunder₁.pending

end Traces

/-- The imports that remain of those of some statements: those of the result. The ones under no condition are among
them. -/
structure Kept (all plain : List Text) (result : List Stmt) (ns : List Text) : Prop where
  result : ns = result.flatMap imports
  sublist : ns.Sublist all
  plain : plain ⊆ ns

namespace Kept

variable {all all' plain plain' ns ms : List Text} {r r' : List Stmt}

theorem nothing (h : r.flatMap imports = []) : Kept all [] r [] := ⟨h.symm, List.nil_sublist _, List.nil_subset _⟩

theorem append (h : Kept all plain r ns) (h' : Kept all' plain' r' ms) :
    Kept (all ++ all') (plain ++ plain') (r ++ r') (ns ++ ms) := by
  refine ⟨?_, h.sublist.append h'.sublist, ?_⟩
  · rw [List.flatMap_append, h.result, h'.result]
  · exact List.append_subset.mpr ⟨fun _ hx => List.mem_append_left _ (h.plain hx),
      fun _ hx => List.mem_append_right _ (h'.plain hx)⟩

/-- Other statements with the same imports. -/
theorem congr (h : Kept all plain r ns) (hr : r'.flatMap imports = r.flatMap imports) : Kept all plain r' ns :=
  ⟨h.result.trans hr.symm, h.sublist, h.plain⟩

/-- All imports may stand under a condition. -/
theorem conditional (h : Kept all plain r ns) : Kept all [] r ns := ⟨h.result, h.sublist, List.nil_subset _⟩

end Kept

section

variable {x y : Check (Option Stmt)} {all plain : List Text} {span : Span}

theorem traces_nested (hx : Traces settings P V x y fun r ns => Kept all plain r.toList ns) :
    Traces settings P V (nested span x) (nested span y) fun s ns => Kept all plain [s] ns := by
  refine .bind hx.collecting fun r ns ⟨hpending, hkept⟩ => .pure ?_
  rw [List.append_nil]
  refine hkept.congr ?_
  have hresult : (r.2.getD (.noOp span)).imports = r.2.toList.flatMap imports := by
    cases r.2 with
    | none => exact Stmt.imports_noOp span
    | some s => exact (List.flatMap_singleton _ _).symm
  rw [List.flatMap_singleton]
  split
  · exact hresult
  · rw [Stmt.imports_block, List.flatMap_append, List.flatMap_singleton, List.flatMap_eq_nil_iff.mpr hpending, hresult]
    rfl

theorem traces_nestedScoped (hx : Traces settings P V x y fun r ns => Kept all plain r.toList ns) :
    Traces settings P V (nestedScoped span x) (nestedScoped span y) fun s ns => Kept all plain [s] ns :=
  (traces_nested hx).inScope

theorem traces_otherwise {s : Stmt} (hx : Traces settings P V x y fun r ns => Kept s.imports s.plainImports r.toList ns) :
    Traces settings P V (unlessAbsent s (nestedScoped span x)) (unlessAbsent s (nestedScoped span y))
      fun out ns => Kept s.imports [] [out] ns := by
  unfold unlessAbsent
  split
  · exact .pure (.nothing rfl)
  · exact (traces_nestedScoped hx).post fun _ _ hkept => hkept.conditional

end

theorem traces_supplied {act : StateM Supply Stmt} {ns : List Text} (h : ∀ s, (act.run s).1.imports = ns) :
    Traces settings P V (supplied act) (supplied act) fun out ms => ms = [] ∧ out.imports = ns := by
  refine ⟨fun _ _ => rfl, fun {site σ out σ'} _ hunder hrun => ?_⟩
  have hbeside := (apart_supplied act).run hrun
  obtain ⟨rfl, -⟩ := supplied_ok hrun
  exact ⟨hunder.beside hbeside, [], [], .none hbeside.modules, rfl, h _⟩

theorem traces_rangeLoop (span : Span) (h : RangeHead) (t : Ty) (body : Stmt) :
    Traces settings P V (rangeLoop span h t body) (rangeLoop span h t body)
      fun out ns => ns = [] ∧ out.imports = body.imports := by
  unfold rangeLoop
  split
  · refine .reading .read fun site => ?_
    split
    · exact traces_supplied fun s => Stmt.imports_reduceRange span h _ body s
    · exact .pure ⟨rfl, Stmt.imports_forRange _ _ _⟩
  · exact .pure ⟨rfl, Stmt.imports_forRange _ _ _⟩

theorem traces_eachLoop (span : Span) (h : EachHead) (body : Stmt) :
    Traces settings P V (eachLoop span h body) (eachLoop span h body)
      fun out ns => ns = [] ∧ out.imports = body.imports := by
  unfold eachLoop
  split
  · refine .reading .read fun site => ?_
    split
    · exact traces_supplied fun s => Stmt.imports_reduceEach span h _ _ body s
    · exact .pure ⟨rfl, Stmt.imports_forEach _ _ _⟩
  · exact .pure ⟨rfl, Stmt.imports_forEach _ _ _⟩

/-- The body of a loop with its counter. -/
def counted (name : Text) (id : Int) (t : Ty) (act : Check Stmt) : Check (Int × Stmt) :=
  inScope do
    let id ← variableId id
    let _ ← declareLocal name id t
    let body ← withReader loopSite act
    pure (id, body)

theorem traces_counted {x y : Check Stmt} {all plain : List Text} {name : Text} {id : Int} {t : Ty}
    (hx : Traces settings P V x y fun out ns => Kept all plain [out] ns) :
    Traces settings P V (counted name id t x) (counted name id t y) fun r ns => Kept all plain [r.2] ns := by
  refine .inScope (.after (apart_variableId _) fun id => .after (apart_declareLocal _ _ _) fun _ => ?_)
  refine .bind (.withReader (fun _ => rfl) hx) fun out ns hkept => .pure ?_
  rwa [List.append_nil]

/-- Two loaders that import modules in the same way. -/
def Provides (settings : CheckSettings) (P : List Text) (V : List (Text × Module)) (load load' : Loader) : Prop :=
  ∀ name span, Traces settings P V (load name span) (load' name span) fun _ ns => ns = [name]

theorem traces_importSymbols {load load' : Loader} (hload : Provides settings P V load load') (span : Span) (name : Text)
    (items : List ImportItem) :
    Traces settings P V (importSymbols load span name items) (importSymbols load' span name items)
      fun _ ns => ns = [name] := by
  refine .reading (reads_requireModuleScope _ _) fun _ => .bind (hload name span) fun r ns hns => ?_
  rw [hns]
  have rest {x : Check Unit} (hx : Apart x) : Traces settings P V x x fun _ ms => [name] ++ ms = [name] :=
    (Traces.apart hx).post fun _ ms hms => by rw [hms]; rfl
  split
  · have missing : Apart (items.forM fun item =>
        declare (if item.rename.isEmpty then item.name else item.rename) item.span .unresolved) :=
      .forM fun item => apart_declare _ _ _
    split
    · exact rest (.bind (.redraft fun _ => rfl) fun _ => missing)
    · exact rest missing
  · refine rest (.bind (.redraft (fun d => ?_) fun d => ?_) fun _ => ?_)
    · split <;> rfl
    · split <;> exact List.Subset.refl _
    split
    · exact .forM fun x => apart_declare _ _ _
    · exact apart_declareItems _ _ _

/-- A declaration imports nothing. -/
theorem traces_declaration {x : Check α} {f : α → Stmt} (hx : Apart x) (hf : ∀ a, (f a).imports = []) (all : List Text) :
    Traces settings P V (do return some (f (← x))) (do return some (f (← x)))
      fun r ns => Kept all [] r.toList ns :=
  .after hx fun a => .pure (.nothing ((List.flatMap_singleton _ _).trans (hf a)))

/-- A function, whose body is checked in a scope of its own. -/
def enclosed (span : Span) (h : FnHead) (act : Check (List Stmt)) : Check (Option Stmt) := do
  let (h, f) ← declareFunction span h
  withReader (fun s => { s with function := some f }) <| inScope do
    let params ← declareParams h.params f.params
    let body ← act
    let h := { h with params }
    if h.isEntry then checkEntryPoint span h f
    return some (.function span h body)

theorem traces_enclosed {x y : Check (List Stmt)} {all plain : List Text} (span : Span) (h : FnHead)
    (hx : Traces settings P V x y (Kept all plain)) :
    Traces settings P V (enclosed span h x) (enclosed span h y) fun r ns => Kept all [] r.toList ns := by
  refine .after (apart_declareFunction span h) fun head => .withReader (fun _ => rfl) (.inScope ?_)
  refine .after (apart_declareParams _ _) fun params => .bind hx fun body ns hkept => ?_
  have hfunction (head : FnHead) : Kept all [] [Stmt.function span head body] (ns ++ []) := by
    rw [List.append_nil]
    exact hkept.conditional.congr (by rw [List.flatMap_singleton, Stmt.imports_function])
  dsimp only
  split
  · exact .reading (reads_checkEntryPoint _ _ _) fun _ => .pure (hfunction _)
  · exact .pure (hfunction _)

theorem traces_constantConditions (arms : List (Expr × Stmt)) :
    Traces settings P V (constantConditions arms) (constantConditions arms)
      fun r ns => ns = [] ∧ r.length = arms.length := by
  refine ⟨fun _ _ => rfl, fun _ hunder h => ?_⟩
  have hbeside := (apart_constantConditions arms).run h
  exact ⟨hunder.beside hbeside, [], [], .none hbeside.modules, rfl, length_constantConditions h⟩

/-- What remains of the imports of a branch. -/
theorem Kept.branch {all all' ns ms : List Text} {arms : List (Expr × Stmt)} {other out : Stmt}
    (h : Kept all [] (arms.map (·.2)) ns) (h' : Kept all' [] [other] ms)
    (hout : out.imports = (arms.map (·.2)).flatMap imports ++ other.imports) :
    Kept (all ++ all') [] [out] (ns ++ (ms ++ [])) := by
  rw [List.append_nil]
  refine (h.append h').congr ?_
  rw [List.flatMap_singleton, hout, List.flatMap_append, List.flatMap_singleton]

section

variable {load load' : Loader}

mutual

/-- The check of a statement imports what the import statements of its result name. -/
theorem traces_statement (hload : Provides settings P V load load') (s : Stmt) :
    Traces settings P V (statement load s) (statement load' s)
      fun r ns => Kept s.imports s.plainImports r.toList ns := by
  cases s with
  | absent => exact .reading (reads_requireFunction _) fun _ => .reject
  | importFrom span name items =>
    refine .bind (traces_importSymbols hload span name items) fun _ ns hns => .pure ?_
    rw [hns]
    exact ⟨rfl, .refl _, List.Subset.refl _⟩
  | option span d => exact traces_declaration (apart_declareOption span d) (fun _ => Stmt.imports_eq rfl) _
  | const span d => exact traces_declaration (apart_declareConst span d) (fun _ => Stmt.imports_eq rfl) _
  | «alias» span d => exact traces_declaration (apart_declareAlias span d) (fun _ => Stmt.imports_eq rfl) _
  | struct span d => exact traces_declaration (apart_declareStruct span d) (fun _ => Stmt.imports_eq rfl) _
  | external span set vars =>
    exact traces_declaration (f := fun r => .external span r.1 r.2) (apart_declareExternals span set vars)
      (fun _ => Stmt.imports_eq rfl) _
  | function span h body =>
    rw [Stmt.imports_function]
    exact traces_enclosed span h (traces_statements hload body)
  | conditional span c body =>
    rw [Stmt.imports_conditional]
    refine .after (apart_expression c) fun cond => .reading (reads_constantCondition cond) fun known => ?_
    split
    · exact (traces_statement hload body).post fun _ _ hkept => hkept.conditional
    · exact .pure (.nothing rfl)
    · refine .bind (.withReader (fun _ => rfl) (traces_statement hload body)) fun r ns hkept => .pure ?_
      rw [List.append_nil]
      refine hkept.conditional.congr ?_
      cases r with
      | none => rfl
      | some s => exact congrArg (· ++ []) (Stmt.imports_conditional span cond s)
  | multi span body =>
    refine .bind (traces_statements hload body) fun r ns hkept => .pure ?_
    rw [List.append_nil, Stmt.imports_multi]
    exact hkept.congr ((List.flatMap_singleton _ _).trans (Stmt.imports_multi span r))
  | noOp span => exact .pure (.nothing rfl)
  | «scoped» span body =>
    rw [Stmt.imports_scoped]
    refine .reading (reads_requireFunction span) fun _ => .bind (traces_nestedScoped (traces_statement hload body)) ?_
    refine fun out ns hkept => .pure ?_
    rw [List.append_nil]
    exact hkept.conditional.congr (congrArg (· ++ []) (Stmt.imports_scoped span out))
  | expr span e =>
    exact .reading (reads_requireFunction span) fun _ => traces_declaration (apart_expression e) (fun _ => Stmt.imports_eq rfl) _
  | letVar span d =>
    exact .reading (reads_requireFunction span) fun _ =>
      traces_declaration (apart_declareVariable span d) (fun _ => Stmt.imports_eq rfl) _
  | branch span isConst arms other =>
    rw [Stmt.imports_branch]
    cases isConst with
    | false =>
      refine .reading (reads_requireFunction span) fun _ => .bind (traces_branchArms hload arms) fun arms' ns hkept => ?_
      refine .bind (traces_otherwise (traces_statement hload other)) fun other' ms hkept' => ?_
      refine .reading .read fun site => ?_
      split
      · exact .pure (hkept.branch hkept' (Stmt.imports_splitBranch _ _ _ _))
      · exact .pure (hkept.branch hkept' (Stmt.imports_branch _ _ _ _))
    | true =>
      refine .reading (reads_requireFunction span) fun _ => .bind (traces_constantConditions arms) ?_
      rintro conds _ ⟨rfl, hlength⟩
      split
      · split
        · refine (traces_selectedBody hload _ arms).post fun r ns hkept => ⟨hkept.result, ?_, List.nil_subset _⟩
          exact hkept.sublist.trans (List.sublist_append_left _ _)
        split
        · exact .pure (.nothing rfl)
        · refine .bind (traces_nestedScoped (traces_statement hload other)) fun out ns hkept => .pure ?_
          rw [List.append_nil]
          exact ⟨hkept.result, hkept.sublist.trans (List.sublist_append_right _ _), List.nil_subset _⟩
      · refine .withReader (fun _ => rfl) ?_
        refine .bind (traces_armBodies hload arms) fun bodies ns ⟨hkept, hbodies⟩ => ?_
        refine .bind (traces_otherwise (traces_statement hload other)) fun other' ms hkept' => .pure ?_
        have harms : ((conds.map (·.1)).zip bodies).map (·.2) = bodies :=
          List.map_snd_zip (by simp [hlength, hbodies])
        rw [← harms] at hkept
        exact hkept.branch hkept' (Stmt.imports_branch _ _ _ _)
  | loop span c u body =>
    rw [Stmt.imports_loop]
    refine .reading (reads_requireFunction span) fun _ => .after ?_ fun cond => .after (apart_unrollAttr u) fun u' => ?_
    · exact .withReader (.bind (apart_expression c) fun cond => .after (reads_requireBool _ _) fun _ => .pure _)
    refine .bind (.withReader (fun _ => rfl) (traces_nestedScoped (traces_statement hload body))) ?_
    refine fun out ns hkept => .pure ?_
    rw [List.append_nil]
    exact hkept.conditional.congr (congrArg (· ++ []) (Stmt.imports_loop span cond u' out))
  | forRange span h body =>
    rw [Stmt.imports_forRange]
    refine .reading (reads_requireFunction span) fun _ => .after (apart_rangeHead h) fun head => ?_
    refine .bind (traces_counted (traces_nested (traces_statement hload body))) fun r ns hkept => ?_
    refine .bind (traces_rangeLoop span _ _ r.2) ?_
    rintro out _ ⟨rfl, hout⟩
    refine .pure ?_
    rw [List.append_nil, List.append_nil]
    exact hkept.conditional.congr (congrArg (· ++ []) hout)
  | forEach span h body =>
    rw [Stmt.imports_forEach]
    refine .reading (reads_requireFunction span) fun _ => .after (apart_eachHead h) fun head => ?_
    refine .bind (traces_counted (traces_nested (traces_statement hload body))) fun r ns hkept => ?_
    refine .bind (traces_eachLoop span _ r.2) ?_
    rintro out _ ⟨rfl, hout⟩
    refine .pure ?_
    rw [List.append_nil, List.append_nil]
    exact hkept.conditional.congr (congrArg (· ++ []) hout)
  | returnWith span e =>
    exact .reading (reads_requireFunction span) fun f =>
      traces_declaration (apart_returned span f e) (fun _ => Stmt.imports_eq rfl) _
  | discard span => exact .reading (reads_requireFunction span) fun _ => .pure (.nothing rfl)
  | breakLoop span | continueLoop span =>
    exact .reading (reads_requireFunction span) fun _ => .reading (reads_requireLoop span _) fun _ =>
      .pure (.nothing rfl)

theorem traces_statements (hload : Provides settings P V load load') (ss : List Stmt) :
    Traces settings P V (statements load ss) (statements load' ss)
      (Kept (ss.flatMap imports) (plainImportsAll ss)) := by
  cases ss with
  | nil => exact .pure (.nothing rfl)
  | cons s ss =>
    refine .bind (traces_statement hload s).collecting fun r ns ⟨hpending, hkept⟩ => ?_
    refine .bind (traces_statements hload ss) fun rs ms hkept' => .pure ?_
    rw [List.append_nil]
    refine (hkept.append hkept').congr ?_
    rw [List.flatMap_append, List.flatMap_append, List.flatMap_append, List.flatMap_eq_nil_iff.mpr hpending]
    rfl

theorem traces_branchArms (hload : Provides settings P V load load') (arms : List (Expr × Stmt)) :
    Traces settings P V (branchArms load arms) (branchArms load' arms)
      fun r ns => Kept ((arms.map (·.2)).flatMap imports) [] (r.map (·.2)) ns := by
  match arms with
  | [] => exact .pure (.nothing rfl)
  | (c, s) :: arms =>
    refine .after (apart_expression c) fun cond => .reading (reads_requireBool _ _) fun _ => ?_
    refine .bind (traces_nestedScoped (traces_statement hload s)) fun out ns hkept => ?_
    refine .bind (traces_branchArms hload arms) fun r ms hkept' => .pure ?_
    rw [List.append_nil]
    exact hkept.conditional.append hkept'

theorem traces_armBodies (hload : Provides settings P V load load') (arms : List (Expr × Stmt)) :
    Traces settings P V (armBodies load arms) (armBodies load' arms)
      fun r ns => Kept ((arms.map (·.2)).flatMap imports) [] r ns ∧ r.length = arms.length := by
  match arms with
  | [] => exact .pure ⟨.nothing rfl, rfl⟩
  | (c, s) :: arms =>
    refine .bind (traces_nestedScoped (traces_statement hload s)) fun out ns hkept => ?_
    refine .bind (traces_armBodies hload arms) fun r ms ⟨hkept', hlength⟩ => .pure ⟨?_, ?_⟩
    · rw [List.append_nil]
      exact hkept.conditional.append hkept'
    · rw [List.length_cons, List.length_cons, hlength]

theorem traces_selectedBody (hload : Provides settings P V load load') (n : Nat) (arms : List (Expr × Stmt)) :
    Traces settings P V (selectedBody load n arms) (selectedBody load' n arms)
      fun r ns => Kept ((arms.map (·.2)).flatMap imports) [] r.toList ns := by
  match n, arms with
  | 0, [] | n + 1, [] => exact .pure (.nothing rfl)
  | 0, (c, s) :: arms =>
    refine .bind (traces_nestedScoped (traces_statement hload s)) fun out ns hkept => .pure ?_
    rw [List.append_nil]
    exact ⟨hkept.result, hkept.sublist.trans (List.sublist_append_left _ _), List.nil_subset _⟩
  | n + 1, (c, s) :: arms =>
    refine (traces_selectedBody hload n arms).post fun r ns hkept => ⟨hkept.result, ?_, List.nil_subset _⟩
    exact hkept.sublist.trans (List.sublist_append_right _ _)

end

end

end Shading.Check
