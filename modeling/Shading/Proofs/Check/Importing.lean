import Mathlib.Logic.Function.Iterate
import Shading.Proofs.Check.Loading
import Shading.Proofs.Check.Tracing

/-! Loaders. Each import is checked while the modules that lead to it are in progress, and none of them is
imported again. So imports are nested no deeper than there are modules, and what lies beyond that depth is of no
importance. -/
namespace Shading

namespace Check

variable {settings : CheckSettings} {P : List Text} {V : List (Text × Module)}

theorem imports_rootStmt (m : Module) :
    m.rootStmt.imports = (m.root.getD {}).body.flatMap Stmt.imports := by
  cases hroot : m.root with
  | none => rw [Module.rootStmt, hroot]; rfl
  | some b => rw [Module.rootStmt, hroot]; exact Stmt.imports_multi _ _

theorem plainImports_rootStmt (m : Module) :
    m.rootStmt.plainImports = Stmt.plainImportsAll (m.root.getD {}).body := by
  cases hroot : m.root with
  | none => rw [Module.rootStmt, hroot]; rfl
  | some b => rw [Module.rootStmt, hroot]; rfl

theorem traces_body {load load' : Loader} (hload : Provides settings P V load load') (m : Module) :
    Traces settings P V (body load m) (body load' m)
      fun r ns => Kept m.rootStmt.imports m.rootStmt.plainImports [r.rootStmt] ns := by
  unfold body
  simp only [reject_bind]
  split
  · exact .reject
  refine .bind (.inScope (traces_statements hload _)) fun body ns hkept => .reading .getDraft fun d => .pure ?_
  rw [List.append_nil, imports_rootStmt, plainImports_rootStmt]
  exact hkept.congr ((List.flatMap_singleton _ _).trans (Stmt.imports_multi _ _))

theorem reads_find (name : Text) : Reads (find name) := by
  refine .bind .getSession fun s => ?_
  split
  · exact .pure _
  refine .bind .read fun site => ?_
  split
  · exact .pure _
  split <;> exact .pure _

theorem find_finds {site : Site} {σ σ' : State} {name : Text} {m : Module}
    (h : find name site σ = .ok (.ok m, σ')) : Finds site.settings σ.session.previous name m := by
  obtain ⟨s, σ₁, hs, hrest⟩ := bind_ok.mp h
  obtain ⟨rfl, rfl⟩ := getSession_ok.mp hs
  cases hprevious : σ₁.session.previous.lookup name with
  | some m' =>
    simp only [hprevious, pure_ok] at hrest
    cases hrest.1
    exact .inl hprevious
  | none =>
    simp only [hprevious] at hrest
    obtain ⟨site', σ₂, hsite, hfound⟩ := bind_ok.mp hrest
    obtain ⟨rfl, rfl⟩ := read_ok.mp hsite
    refine .inr ⟨hprevious, ?_⟩
    cases hresolver : site'.settings.resolver with
    | none => simp [hresolver, pure_ok] at hfound
    | some r =>
      simp only [hresolver] at hfound
      cases hr : r.find name with
      | error e => simp [hr, pure_ok] at hfound
      | ok x =>
        cases x with
        | none => simp [hr, pure_ok] at hfound
        | some m' =>
          simp only [hr, pure_ok] at hfound
          cases hfound.1
          exact ⟨r, rfl, hr⟩

/-- The names of the modules that came along, and those that a resolver has. -/
def knownNames (settings : CheckSettings) (V : List (Text × Module)) : List Text :=
  V.map (·.1) ++ settings.resolver.elim [] (·.names)

/-- The names that may be imported while some modules are in progress. -/
def openNames (settings : CheckSettings) (V : List (Text × Module)) (P : List Text) : List Text :=
  (knownNames settings V).filter (· ∉ P)

theorem length_openNames_le (settings : CheckSettings) (V : List (Text × Module)) (P : List Text) :
    (openNames settings V P).length ≤ V.length + settings.resolver.elim 0 (·.names.length) := by
  refine Nat.le_trans (List.length_filter_le _ _) ?_
  rw [knownNames, List.length_append, List.length_map]
  cases settings.resolver <;> exact Nat.le_refl _

/-- With each module that is in progress there is one name less. -/
theorem length_openNames_cons {name : Text} (hknown : name ∈ knownNames settings V) (hname : name ∉ P) :
    (openNames settings V (name :: P)).length < (openNames settings V P).length := by
  have heq : openNames settings V (name :: P) = (openNames settings V P).filter (· ≠ name) := by
    rw [openNames, openNames, List.filter_filter]
    refine List.filter_congr fun n _ => ?_
    simp [not_or]
  rw [heq, List.length_filter_lt_length_iff_exists]
  exact ⟨name, List.mem_filter.mpr ⟨hknown, by simpa using hname⟩, by simp⟩

end Check

/-- Modules are found under the names that the resolver has. -/
def CheckSettings.Finite (settings : CheckSettings) : Prop :=
  ∀ r, settings.resolver = some r → ∀ name m, r.find name = .ok (some m) → name ∈ r.names

namespace Check

variable {settings : CheckSettings} {P : List Text} {V : List (Text × Module)}

theorem Finds.known {name : Text} {m : Module} (hfinite : settings.Finite) (h : Finds settings V name m) :
    name ∈ knownNames settings V := by
  rcases h with h | ⟨-, r, hr, hfind⟩
  · exact List.mem_append_left _ (List.mem_map.mpr ⟨_, mem_of_lookup h, rfl⟩)
  · refine List.mem_append_right _ ?_
    rw [hr]
    exact hfinite r hr name m hfind

section

variable {inner inner' : Loader} {name : Text} {span : Span} {site : Site} {σ σ' : State}

theorem State.Under.enter (hσ : σ.Under P V) : State.Under (name :: P) V { session := σ.session.enter name } :=
  ⟨by rw [Session.enter, hσ.inProgress], hσ.previous, hσ.missing, nofun⟩

/-- The check of an imported module with one loader is that with another one if they import in the same way while
the module is in progress. -/
theorem separately_agree {m : Module} (hinner : Provides site.settings (name :: P) V inner inner') (hσ : σ.Under P V) :
    separately name (body inner m) site σ = separately name (body inner' m) site σ := by
  have hbody : body inner m { settings := site.settings } { session := σ.session.enter name } =
      body inner' m { settings := site.settings } { session := σ.session.enter name } :=
    (traces_body hinner m).agree rfl hσ.enter
  unfold separately
  rw [Session.enter] at hbody
  simp only [hbody]

/-- An imported module is checked when it is imported for the first time. -/
theorem separately_first {m : Module} {e : Exported} {depth : Nat}
    (hinner : Provides site.settings (name :: P) V (loader depth) inner') (hσ : σ.Under P V)
    (hnew : σ.session.finished.lookup name = none) (hname : name ∉ P) (hfinds : Finds site.settings V name m)
    (h : separately name (body (loader depth) m) site σ = .ok (e, σ')) :
    σ'.Under P V ∧ ∃ cs, σ.session.Imports site.settings [name] cs σ'.session := by
  obtain ⟨r, done, hrun, rfl, rfl⟩ := separately_ok h
  replace hrun : body (loader depth) m { settings := site.settings } { session := σ.session.enter name } = .ok (r, done) :=
    hrun
  have hsite : ({ settings := site.settings } : Site).settings = site.settings := rfl
  obtain ⟨hdone, ns, cs, himports, hkept⟩ := (traces_body hinner m).run hsite hσ.enter hrun
  have hns : ns = r.rootStmt.imports := by rw [hkept.result, List.flatMap_singleton]
  rw [hns] at himports
  refine ⟨⟨?_, hdone.previous, hdone.missing, hσ.pending⟩, cs ++ [name], ?_⟩
  · change done.session.inProgress.erase name = P
    rw [hdone.inProgress]
    exact List.erase_cons_head _ _
  · exact .first hnew (hσ.inProgress ▸ hname) (hσ.previous ▸ hfinds) hrun ⟨hns ▸ hkept.sublist, hns ▸ hkept.plain⟩ himports

theorem getSession_bind {β : Type} (f : Session → Check β) : (getSession >>= f) site σ = f σ.session site σ := rfl

/-- A module that is done is not checked again. -/
theorem importing_again (inner : Loader) (hσ : σ.Under P V) {e : Exported}
    (h : σ.session.finished.lookup name = some e) : importing inner name span site σ = .ok (some e, σ) := by
  rw [importing, getSession_bind, hσ.missing]
  simp only [List.contains_nil, h]
  rfl

/-- A module that is in progress is not imported. -/
theorem importing_cyclic (inner : Loader) (hσ : σ.Under P V) (h : σ.session.finished.lookup name = none)
    (hname : name ∈ P) : importing inner name span site σ = reject span (.cyclicImport name) site σ := by
  rw [importing, getSession_bind, hσ.missing, hσ.inProgress]
  simp only [List.contains_nil, h, List.contains_iff_mem.mpr hname, reject_bind]
  rfl

/-- Another module has to be found. -/
theorem importing_first (inner : Loader) (hσ : σ.Under P V) (hstrict : site.settings.lenient = false)
    (h : σ.session.finished.lookup name = none) (hname : name ∉ P) :
    importing inner name span site σ = (find name >>= fun
      | .ok m => do return some (← separately name (body inner m))
      | .error reason => reject span (.missingImport name reason)) site σ := by
  have hnot : P.contains name = false := by simpa using hname
  rw [importing, getSession_bind, hσ.missing, hσ.inProgress]
  simp only [List.contains_nil, h, hnot, reject_bind, Bool.false_eq_true, if_false]
  refine bind_agree rfl fun {found σ₁} _ => ?_
  cases found with
  | ok m => rfl
  | error reason =>
    change (if (!site.settings.lenient) = true then _ else _ : Check (Option Exported)) site σ₁ = _
    rw [hstrict]
    rfl

end

/-- Loaders that agree on the imports of each imported module agree on imports. -/
theorem provides_importing {depth : Nat} {inner' : Loader} (hstrict : settings.lenient = false) (hfinite : settings.Finite)
    (hinner : ∀ name, name ∉ P → name ∈ knownNames settings V →
      Provides settings (name :: P) V (loader depth) inner') :
    Provides settings P V (importing (loader depth)) (importing inner') := by
  intro name span
  have first {site : Site} {σ σ' : State} {m : Module} (hσ : σ.Under P V) (hsite : site.settings = settings)
      (hname : name ∉ P) (hfind : find name site σ = .ok (.ok m, σ')) :
      σ' = σ ∧ Finds settings V name m ∧ Provides settings (name :: P) V (loader depth) inner' := by
    have hfinds := find_finds hfind
    rw [hsite, hσ.previous] at hfinds
    exact ⟨(reads_find name).run hfind, hfinds, hinner name hname (hfinds.known hfinite)⟩
  refine ⟨fun {site σ} hsite hσ => ?_, fun {site σ r σ'} hsite hσ h => ?_⟩
  · cases hfinished : σ.session.finished.lookup name with
    | some e => rw [importing_again _ hσ hfinished, importing_again _ hσ hfinished]
    | none =>
      by_cases hname : name ∈ P
      · rw [importing_cyclic _ hσ hfinished hname, importing_cyclic _ hσ hfinished hname]
      · rw [importing_first _ hσ (hsite ▸ hstrict) hfinished hname, importing_first _ hσ (hsite ▸ hstrict) hfinished hname]
        refine bind_agree rfl fun {found σ₁} hfind => ?_
        cases found with
        | error reason => rfl
        | ok m =>
          obtain ⟨rfl, -, hprovides⟩ := first hσ hsite hname hfind
          exact bind_agree (separately_agree (hsite ▸ hprovides) hσ) fun _ => rfl
  · cases hfinished : σ.session.finished.lookup name with
    | some e =>
      rw [importing_again _ hσ hfinished] at h
      cases h
      exact ⟨hσ, [name], [], .again hfinished, rfl⟩
    | none =>
      by_cases hname : name ∈ P
      · rw [importing_cyclic _ hσ hfinished hname] at h
        exact (reject_ok.mp h).elim
      · rw [importing_first _ hσ (hsite ▸ hstrict) hfinished hname] at h
        obtain ⟨found, σ₁, hfind, hrest⟩ := bind_ok.mp h
        cases found with
        | error reason => exact (reject_ok.mp hrest).elim
        | ok m =>
          obtain ⟨rfl, hfinds, hprovides⟩ := first hσ hsite hname hfind
          obtain ⟨e, σ₂, hrun, hpure⟩ := bind_ok.mp hrest
          obtain ⟨rfl, rfl⟩ := pure_ok.mp hpure
          subst hsite
          obtain ⟨hunder, cs, himports⟩ := separately_first hprovides hσ hfinished hname hfinds hrun
          exact ⟨hunder, [name], cs, himports, rfl⟩

/-- Nested deeply enough, imports do not depend on what is beyond. -/
theorem provides_loader (hstrict : settings.lenient = false) (hfinite : settings.Finite) (base : Loader) {depth : Nat}
    (hdepth : (openNames settings V P).length < depth) : Provides settings P V (loader depth) (importing^[depth] base) := by
  induction depth generalizing P with
  | zero => exact absurd hdepth (Nat.not_lt_zero _)
  | succ depth ih =>
    rw [Function.iterate_succ_apply']
    refine provides_importing hstrict hfinite fun name hname hknown => ih ?_
    have hlt := length_openNames_cons hknown hname
    omega

end Check

end Shading
