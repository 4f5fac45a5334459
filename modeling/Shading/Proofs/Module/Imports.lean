import Mathlib.Data.List.Nodup
import Mathlib.Logic.Relation
import Shading.Parser
import Shading.Proofs.Check.Importing

/-! The imports of a checked module. They lead in no circle, and each module that they lead to has been checked
once, after those that it imports itself. -/
namespace Shading

open Relation (ReflTransGen TransGen)

namespace Check

/-- The names of modules that are done. -/
def Session.names (s : Session) : List Text := s.finished.map (·.1)

/-- Among modules that are done, one imports another one. -/
def ImportsAmong (fs : List (Text × Exported)) (a b : Text) : Prop := ∃ e, (a, e) ∈ fs ∧ b ∈ e.result.rootStmt.imports

/-- A module is done: what it imports is done before, and it has been checked right after that. -/
structure Done (settings : CheckSettings) (previous : List (Text × Module)) (before : List (Text × Exported))
    (f : Text × Exported) : Prop where
  imports : ∀ name ∈ f.2.result.rootStmt.imports, name ∈ before.map (·.1)
  checked : ∃ m, Finds settings previous f.1 m ∧ m.KeepsImports f.2.result ∧ ∃ depth s σ,
    body (loader depth) m { settings } { session := s } = .ok (f.2.result, σ) ∧ σ.session.finished = before

/-- The modules that are done, each of them once, and none that is in progress. -/
structure Session.Orderly (settings : CheckSettings) (s : Session) : Prop where
  nodup : s.names.Nodup
  inProgress : ∀ name ∈ s.inProgress, name ∉ s.names
  done : ∀ before f after, s.finished = before ++ f :: after → Done settings s.previous before f

namespace Session

variable {settings : CheckSettings} {s s' : Session} {ns cs : List Text}

theorem names_complete (s : Session) (name : Text) (e : Exported) : (s.complete name e).names = s.names ++ [name] :=
  List.map_append

theorem lookup_finished {name : Text} : s.finished.lookup name = none ↔ name ∉ s.names := by
  rw [List.lookup_eq_none_iff, names, List.mem_map]
  constructor
  · rintro h ⟨f, hf, rfl⟩
    simpa using h f hf
  · intro h f hf
    rw [bne_iff_ne]
    exact fun heq => h ⟨f, hf, heq.symm⟩

/-- What is done stays, and what is checked is added to it. -/
theorem Imports.finished (h : Imports settings s ns cs s') :
    ∃ fs : List (Text × Exported), s'.finished = s.finished ++ fs ∧ fs.map (·.1) = cs := by
  induction h with
  | none h => exact ⟨[], by rw [h.finished, List.append_nil], rfl⟩
  | append _ _ ih ih' =>
    obtain ⟨fs, hfs, rfl⟩ := ih
    obtain ⟨gs, hgs, rfl⟩ := ih'
    exact ⟨fs ++ gs, by rw [hgs, hfs, List.append_assoc], List.map_append⟩
  | again => exact ⟨[], (List.append_nil _).symm, rfl⟩
  | first _ _ _ _ _ _ ih =>
    obtain ⟨fs, hfs, rfl⟩ := ih
    exact ⟨_, by rw [complete, hfs, List.append_assoc]; rfl, List.map_append⟩

theorem Imports.names (h : Imports settings s ns cs s') : s'.names = s.names ++ cs := by
  obtain ⟨fs, hfs, rfl⟩ := h.finished
  rw [Session.names, hfs, List.map_append, Session.names]

/-- What has been imported is done. -/
theorem Imports.found (h : Imports settings s ns cs s') : ∀ name ∈ ns, name ∈ s'.names := by
  induction h with
  | none => exact nofun
  | append _ himports ih ih' =>
    intro name hname
    rcases List.mem_append.mp hname with hname | hname
    · rw [himports.names]
      exact List.mem_append_left _ (ih name hname)
    · exact ih' name hname
  | again h =>
    intro name hname
    rw [List.mem_singleton.mp hname]
    by_contra hnot
    rw [lookup_finished.mpr hnot] at h
    cases h
  | first =>
    intro name hname
    rw [names_complete, List.mem_singleton.mp hname]
    exact List.mem_append_right _ List.mem_cons_self

/-- Imports keep modules in order. -/
theorem Imports.orderly (h : Imports settings s ns cs s') (hs : s.Orderly settings) : s'.Orderly settings := by
  induction h with
  | none h =>
    refine ⟨?_, ?_, ?_⟩
    · rw [Session.names, h.finished]
      exact hs.nodup
    · rw [Session.names, h.finished, h.inProgress]
      exact hs.inProgress
    · rw [h.finished, h.previous]
      exact hs.done
  | append _ _ ih ih' => exact ih' (ih hs)
  | again => exact hs
  | @first s name m r depth cs σ hnew hname hfinds hrun hkeeps himports ih =>
    have hnames : name ∉ s.names := lookup_finished.mp hnew
    have henter : (s.enter name).Orderly settings := by
      refine ⟨hs.nodup, fun n hn => ?_, hs.done⟩
      rcases List.mem_cons.mp hn with rfl | hn
      · exact hnames
      · exact hs.inProgress n hn
    have hσ := ih henter
    obtain ⟨hprogress, hprevious, -⟩ := himports.frame
    have hself : name ∉ σ.session.names := hσ.inProgress name (by rw [hprogress]; exact List.mem_cons_self)
    refine ⟨?_, fun n hn => ?_, fun before f after heq => ?_⟩
    · rw [names_complete]
      exact List.concat_eq_append ▸ hσ.nodup.concat hself
    · replace hn : n ∈ s.inProgress := by
        rw [complete, hprogress] at hn
        rwa [← List.erase_cons_head name s.inProgress]
      rw [names_complete, List.mem_append, List.mem_singleton]
      rintro (hmem | rfl)
      · exact hσ.inProgress n (by rw [hprogress]; exact List.mem_cons_of_mem _ hn) hmem
      · exact hname hn
    · -- the last module is the one that has just been checked
      rcases List.eq_nil_or_concat after with rfl | ⟨after', z, rfl⟩
      · obtain ⟨rfl, hlast⟩ := List.append_inj' heq rfl
        cases hlast
        refine ⟨himports.found, m, hprevious ▸ hfinds, hkeeps, depth, s.enter name, σ, hrun, rfl⟩
      · rw [List.concat_eq_append, ← List.cons_append, ← List.append_assoc] at heq
        obtain ⟨hinit, -⟩ := List.append_inj' heq rfl
        exact hσ.done before f after' hinit

theorem ImportsAmong.mono {fs gs : List (Text × Exported)} {a b : Text} (h : ImportsAmong fs a b) :
    ImportsAmong (fs ++ gs) a b :=
  h.imp fun _ ⟨he, hb⟩ => ⟨List.mem_append_left _ he, hb⟩

/-- Imports lead to each module that has been checked for them. -/
theorem Imports.reached (h : Imports settings s ns cs s') :
    ∀ b ∈ cs, ∃ a ∈ ns, ReflTransGen (ImportsAmong s'.finished) a b := by
  induction h with
  | none => exact nofun
  | append _ himports ih ih' =>
    intro b hb
    rcases List.mem_append.mp hb with hb | hb
    · obtain ⟨a, ha, hab⟩ := ih b hb
      obtain ⟨gs, hgs, -⟩ := himports.finished
      rw [hgs]
      exact ⟨a, List.mem_append_left _ ha, hab.lift id fun _ _ => ImportsAmong.mono⟩
    · obtain ⟨a, ha, hab⟩ := ih' b hb
      exact ⟨a, List.mem_append_right _ ha, hab⟩
  | again => exact nofun
  | @first s name m r depth cs σ _ _ _ _ _ _ ih =>
    intro b hb
    refine ⟨name, List.mem_cons_self, ?_⟩
    rcases List.mem_append.mp hb with hb | hb
    · obtain ⟨a, ha, hab⟩ := ih b hb
      refine .head ⟨_, List.mem_append_right _ List.mem_cons_self, ha⟩ ?_
      exact hab.lift id fun _ _ => ImportsAmong.mono
    · rw [List.mem_singleton.mp hb]

end Session

namespace Session

theorem sameModules_reserveStmt (s : Session) (x : Stmt) : s.SameModules (s.reserveStmt x) := by
  have hfold {α : Type} (id : α → Int) (as : List α) (s : Session) :
      s.SameModules (as.foldl (fun s a => s.reserveVar (id a)) s) := by
    induction as generalizing s with
    | nil => exact .refl s
    | cons a as ih =>
      have hvar : s.SameModules (s.reserveVar (id a)) := ⟨rfl, rfl, rfl, rfl⟩
      exact hvar.trans (ih _)
  cases x with
  | function span h body =>
    have hfunc : s.SameModules { s with nextFunc := Serial.after s.nextFunc h.id } := ⟨rfl, rfl, rfl, rfl⟩
    exact hfunc.trans (hfold FnParam.id h.params _)
  | external span set vars => exact hfold External.id vars s
  | _ => exact ⟨rfl, rfl, rfl, rfl⟩

theorem sameModules_reserveNodes (s : Session) (m : Module) : s.SameModules (s.reserveNodes m) := by
  unfold reserveNodes
  generalize m.rootStmt.nodes.filterMap Node.stmt? = xs
  induction xs generalizing s with
  | nil => exact .refl s
  | cons x xs ih => exact (s.sameModules_reserveStmt x).trans (ih _)

/-- Numbers are reserved before anything is imported. The modules that came along are known from before. -/
theorem reserve_modules (s : Session) (m : Module) :
    (s.reserve m).finished = s.finished ∧ (s.reserve m).missing = s.missing ∧
      (s.reserve m).previous = m.imported.reverse ++ s.previous := by
  have hfold (is : List (Text × Module)) (s : Session) :
      let t := is.foldl (fun s i => reserveNodes { s with previous := i :: s.previous } i.2) s
      t.finished = s.finished ∧ t.missing = s.missing ∧ t.previous = is.reverse ++ s.previous := by
    induction is generalizing s with
    | nil => exact ⟨rfl, rfl, rfl⟩
    | cons i is ih =>
      have hsame := sameModules_reserveNodes { s with previous := i :: s.previous } i.2
      obtain ⟨hfinished, hmissing, hprevious⟩ := ih (reserveNodes { s with previous := i :: s.previous } i.2)
      refine ⟨hfinished.trans hsame.finished, hmissing.trans hsame.missing, hprevious.trans ?_⟩
      rw [hsame.previous, List.reverse_cons, List.append_assoc]
      rfl
  have hsame := s.sameModules_reserveNodes m
  obtain ⟨hfinished, hmissing, hprevious⟩ := hfold m.imported (s.reserveNodes m)
  exact ⟨hfinished.trans hsame.finished, hmissing.trans hsame.missing, hprevious.trans (by rw [hsame.previous])⟩

end Session

end Check

namespace Module

/-- The name of a module, if it has one. -/
def label (m : Module) : Option Text :=
  let name := m.metadata.elim [] (·.name)
  if name.isEmpty then none else some name

/-- The session that the check of a module starts with. A module that has a name is in progress under it. -/
def opened (m : Module) : Check.Session := { Check.Session.reserve {} m with inProgress := m.label.toList }

/-- Imports are never nested more deeply than this. -/
def importDepth (settings : CheckSettings) (m : Module) : Nat :=
  m.imported.length + settings.resolver.elim 0 (·.names.length) + 1

/-- The check of a module where imports are left to a loader. -/
def checkWith (load : Check.Loader) (settings : CheckSettings) (m : Module) : Except CheckError Module := do
  let (result, state) ← Check.body load m { settings } { session := m.opened }
  return { result with imported := Check.modules state.session.finished }

theorem check_eq (m : Module) (settings : CheckSettings) :
    m.check settings = m.checkWith (Check.loader (m.importDepth settings)) settings := by
  have hopened : m.opened = { Check.Session.reserve {} m with
      inProgress := if (m.metadata.elim [] (·.name)).isEmpty then [] else [m.metadata.elim [] (·.name)] } := by
    unfold opened label
    dsimp only
    split <;> rfl
  rw [checkWith, hopened]
  rfl

/-- A checked module itself goes by its name, if it has one, and those that it imports by theirs. -/
def Holds (r : Module) (u : Option Text) (x : Module) : Prop :=
  u = r.label ∧ x = r ∨ ∃ name, u = some name ∧ (name, x) ∈ r.imported

/-- An import statement of one module names another one. -/
def Imports (r : Module) (u v : Option Text) : Prop :=
  ∃ x, r.Holds u x ∧ ∃ name ∈ x.rootStmt.imports, v = some name

/-- The imports of a module that has been checked, the import statements that are left being those of the result. -/
structure ImportsInOrder (settings : CheckSettings) (m r : Module) : Prop where
  /-- import statements that stand under no condition are left, and no others are added -/
  kept : m.KeepsImports r
  acyclic : ∀ u, ¬ TransGen r.Imports u u
  /-- the imported modules are those that imports lead to -/
  reachable : ∀ name, name ∈ r.imported.map (·.1) ↔ TransGen r.Imports r.label (some name)
  nodup : (r.imported.map (·.1)).Nodup
  /-- each comes after those that it imports itself -/
  ordered : ∀ before x after, r.imported = before ++ x :: after →
    ∀ name ∈ x.2.rootStmt.imports, name ∈ before.map (·.1)
  /-- each is the result of the check of the module that its name stands for, at the end of which those before it
  are done -/
  checked : ∀ before x after, r.imported = before ++ x :: after →
    ∃ n, Check.Finds settings m.opened.previous x.1 n ∧ n.KeepsImports x.2 ∧ ∃ depth s σ,
      Check.body (Check.loader depth) n { settings } { session := s } = .ok (x.2, σ) ∧
        Check.modules σ.session.finished = before
  /-- no other modules have been checked, and none more than once -/
  once : ∃ s, m.opened.Imports settings r.rootStmt.imports (r.imported.map (·.1)) s

section

variable {settings : CheckSettings} {m r : Module}

theorem provides_opened (hstrict : settings.lenient = false) (hfinite : settings.Finite) (base : Check.Loader) :
    Check.Provides settings m.label.toList m.opened.previous (Check.loader (m.importDepth settings))
      (Check.importing^[m.importDepth settings] base) := by
  refine Check.provides_loader hstrict hfinite base ?_
  have hle := Check.length_openNames_le settings m.opened.previous m.label.toList
  have hprevious : m.opened.previous = m.imported.reverse := by
    rw [opened, (Check.Session.reserve_modules {} m).2.2, List.append_nil]
  rw [hprevious, List.length_reverse] at hle
  rw [hprevious]
  unfold importDepth
  omega

theorem opened_under (m : Module) :
    Check.State.Under m.label.toList m.opened.previous { session := m.opened } :=
  ⟨rfl, rfl, (Check.Session.reserve_modules {} m).2.1, nofun⟩

/-- Nothing depends on the loader that imports would be left to if they were nested more deeply. -/
theorem checkWith_importing (hstrict : settings.lenient = false) (hfinite : settings.Finite) (base : Check.Loader) :
    m.checkWith (Check.importing^[m.importDepth settings] base) settings = m.check settings := by
  have hsite : ({ settings } : Check.Site).settings = settings := rfl
  have hbody := (Check.traces_body (provides_opened hstrict hfinite base) m).agree hsite m.opened_under
  rw [check_eq, checkWith, checkWith, hbody]

/-- A checked module keeps its name. -/
theorem label_body {load : Check.Loader} {site : Check.Site} {σ σ' : Check.State}
    (h : Check.body load m site σ = .ok (r, σ')) : r.label = m.label := by
  unfold Check.body at h
  simp only [Check.reject_bind] at h
  split at h
  · exact (Check.reject_ok.mp h).elim
  obtain ⟨ss, σ₁, -, h⟩ := Check.bind_ok.mp h
  obtain ⟨d, σ₂, -, h⟩ := Check.bind_ok.mp h
  obtain ⟨rfl, -⟩ := Check.pure_ok.mp h
  have hname : (Check.headOf m).name = m.metadata.elim [] (·.name) := by
    unfold Check.headOf
    cases m.metadata with
    | none => rfl
    | some d =>
      dsimp only [Option.getD_some]
      split <;> rfl
  simp only [label, Option.elim_some, hname]

/-- The session of a check that has a result. -/
theorem session_of_check (hstrict : settings.lenient = false) (hfinite : settings.Finite) (h : m.check settings = .ok r) :
    ∃ cs s, m.opened.Imports settings r.rootStmt.imports cs s ∧ r.imported = Check.modules s.finished ∧
      m.KeepsImports r ∧ r.label = m.label := by
  rw [check_eq, checkWith] at h
  cases hrun : Check.body (Check.loader (m.importDepth settings)) m { settings } { session := m.opened } with
  | error e =>
    rw [hrun] at h
    cases h
  | ok x =>
    rw [hrun] at h
    cases h
    have hsite : ({ settings } : Check.Site).settings = settings := rfl
    obtain ⟨-, ns, cs, himports, hkept⟩ := (Check.traces_body (provides_opened hstrict hfinite (Check.loader 0)) m).run
      hsite m.opened_under hrun
    have hns : ns = x.1.rootStmt.imports := by rw [hkept.result, List.flatMap_singleton]
    subst hns
    have hlabel : x.1.label = m.label := label_body hrun
    exact ⟨cs, _, himports, rfl, ⟨hkept.sublist, hkept.plain⟩, hlabel⟩

theorem orderly_opened (m : Module) : m.opened.Orderly settings := by
  have hfinished : m.opened.finished = [] := (Check.Session.reserve_modules {} m).1
  refine ⟨?_, ?_, fun before f after heq => ?_⟩
  · rw [Check.Session.names, hfinished]
    exact List.nodup_nil
  · rw [Check.Session.names, hfinished]
    exact nofun
  · rw [hfinished] at heq
    cases before <;> cases heq

/-- Modules that come later than those that they import form no circle. -/
theorem acyclic_of_ordered (hnodup : (r.imported.map (·.1)).Nodup)
    (hordered : ∀ before x after, r.imported = before ++ x :: after →
      ∀ name ∈ x.2.rootStmt.imports, name ∈ before.map (·.1))
    (hroot : ∀ name ∈ r.rootStmt.imports, name ∈ r.imported.map (·.1))
    (hlabel : ∀ name ∈ r.label, name ∉ r.imported.map (·.1)) (u : Option Text) : ¬ TransGen r.Imports u u := by
  -- the place of a module in the list; the module that imports them all comes last
  let rank (u : Option Text) : Nat := u.elim r.imported.length (r.imported.map (·.1)).idxOf
  have hlt {u v : Option Text} (h : r.Imports u v) : rank v < rank u := by
    obtain ⟨x, ⟨rfl, rfl⟩ | ⟨a, rfl, hx⟩, name, hname, rfl⟩ := h
    · have hlast : rank x.label = x.imported.length := by
        cases hu : x.label with
        | none => rfl
        | some own => exact (List.idxOf_of_notMem (hlabel own hu)).trans (List.length_map _)
      rw [hlast, ← List.length_map]
      exact List.idxOf_lt_length_of_mem (hroot name hname)
    · obtain ⟨before, after, heq⟩ := List.append_of_mem hx
      have hbefore := hordered before (a, x) after heq name hname
      have hnames : r.imported.map (·.1) = before.map (·.1) ++ a :: after.map (·.1) := by
        rw [heq, List.map_append, List.map_cons]
      rw [hnames] at hnodup
      have ha : a ∉ before.map (·.1) := fun hmem =>
        (List.nodup_append.mp hnodup).2.2 a hmem a List.mem_cons_self rfl
      change (r.imported.map (·.1)).idxOf name < (r.imported.map (·.1)).idxOf a
      rw [hnames, List.idxOf_append_of_mem hbefore, List.idxOf_append_of_notMem ha, List.idxOf_cons_self, Nat.add_zero]
      exact List.idxOf_lt_length_of_mem hbefore
  have htrans {u v : Option Text} (h : TransGen r.Imports u v) : rank v < rank u := by
    induction h with
    | single h => exact hlt h
    | tail _ h ih => exact Nat.lt_trans (hlt h) ih
  exact fun h => Nat.lt_irrefl _ (htrans h)

/-- The imports of modules that are done are those of the modules of the result. -/
theorem imports_of_among {fs : List (Text × Check.Exported)} (hfs : r.imported = Check.modules fs) {a b : Text}
    (h : Check.ImportsAmong fs a b) : r.Imports (some a) (some b) := by
  obtain ⟨e, he, hb⟩ := h
  refine ⟨e.result, .inr ⟨a, rfl, ?_⟩, b, hb, rfl⟩
  rw [hfs]
  exact List.mem_map.mpr ⟨(a, e), he, rfl⟩

/-- The check of a module ends, however its imports lead to each other. If it has a result, they lead in no circle,
and each module that they lead to has been checked once, after those that it imports itself. -/
theorem check_importsInOrder (hstrict : settings.lenient = false) (hfinite : settings.Finite) :
    (∀ base, m.checkWith (Check.importing^[m.importDepth settings] base) settings = m.check settings) ∧
      ∀ r, m.check settings = .ok r → m.ImportsInOrder settings r := by
  refine ⟨checkWith_importing hstrict hfinite, fun r h => ?_⟩
  obtain ⟨cs, s, himports, hr, hkept, hlabel⟩ := session_of_check hstrict hfinite h
  have hfinished : m.opened.finished = [] := (Check.Session.reserve_modules {} m).1
  have hsorted := himports.orderly (orderly_opened m)
  have hnames : r.imported.map (·.1) = s.names := by
    rw [hr, Check.modules, List.map_map]
    rfl
  have hcs : cs = s.names := by
    rw [himports.names, Check.Session.names, hfinished]
    rfl
  -- what holds of each module that is done holds of the one in the result
  have hdone {before after : List (Text × Module)} {x : Text × Module} (heq : r.imported = before ++ x :: after) :
      ∃ fs e, Check.Done settings s.previous fs (x.1, e) ∧ before = Check.modules fs ∧ x.2 = e.result := by
    rw [hr] at heq
    obtain ⟨fs, rest, hs, rfl, hrest⟩ := List.map_eq_append_iff.mp heq
    obtain ⟨f, gs, rfl, rfl, -⟩ := List.map_eq_cons_iff.mp hrest
    exact ⟨fs, f.2, hsorted.done fs f gs hs, rfl, rfl⟩
  have hordered (before : List (Text × Module)) (x : Text × Module) (after : List (Text × Module))
      (heq : r.imported = before ++ x :: after) : ∀ name ∈ x.2.rootStmt.imports, name ∈ before.map (·.1) := by
    obtain ⟨fs, e, hf, rfl, hx⟩ := hdone heq
    rw [Check.modules, List.map_map, hx]
    exact hf.imports
  have hroot : ∀ name ∈ r.rootStmt.imports, name ∈ r.imported.map (·.1) := hnames ▸ himports.found
  have hown : ∀ name ∈ r.label, name ∉ r.imported.map (·.1) := by
    intro name hname
    rw [hnames]
    refine hsorted.inProgress name ?_
    rw [himports.frame.1, opened, ← hlabel]
    exact Option.mem_toList.mpr hname
  refine ⟨hkept, ?_, fun name => ⟨fun hname => ?_, fun hname => ?_⟩, hnames ▸ hsorted.nodup, hordered,
    fun before x after heq => ?_, s, hnames ▸ hcs ▸ himports⟩
  · exact acyclic_of_ordered (hnames ▸ hsorted.nodup) hordered hroot hown
  · obtain ⟨a, ha, hpath⟩ := himports.reached name (by rw [hcs, ← hnames]; exact hname)
    have hfirst : r.Imports r.label (some a) := ⟨r, .inl ⟨rfl, rfl⟩, a, ha, rfl⟩
    exact .head' hfirst (hpath.lift some fun _ _ => imports_of_among hr)
  · -- whatever imports a module, the module is listed
    obtain ⟨u, -, x, hx, n, hn, hname⟩ := TransGen.tail'_iff.mp hname
    cases hname
    obtain ⟨rfl, rfl⟩ | ⟨a, rfl, hx⟩ := hx
    · exact hroot name hn
    · obtain ⟨before, after, heq⟩ := List.append_of_mem hx
      rw [heq, List.map_append]
      exact List.mem_append_left _ (hordered before (a, x) after heq name hn)
  · obtain ⟨fs, e, hf, rfl, hx⟩ := hdone heq
    obtain ⟨n, hfinds, hkeeps, depth, t, σ, hrun, hfs⟩ := hf.checked
    rw [himports.frame.2.1] at hfinds
    rw [hx]
    exact ⟨n, hfinds, hkeeps, depth, t, σ, hrun, by rw [hfs]⟩

end

-- A module that imports another one along two ways and under a condition. An import under a condition that does not
-- hold is left out.
private def importingText : Text :=
  "module main; import L from left; import R as S from right; import L as M from left;
option F: bool = false;
[cond(F)] import base;
[cond(false)] import nowhere;
const K = L + S + M;"

private def importedTexts : List (Text × Text) :=
  [("left", "module left; import N from base; [export] const L = N;"),
    ("right", "module right; import base; [export] const R = N + 1;"),
    ("base", "module base; [export] const N = 4;")]

private def importSettings : CheckSettings where
  resolver := some ⟨importedTexts.map (·.1), fun name => .ok ((importedTexts.lookup name).bind fun source =>
    (parse source).toOption)⟩

private theorem imports_run : ∃ m r, parse importingText = .ok m ∧ m.check importSettings = .ok r ∧
    r.imported.map (·.1) = ["base", "left", "right"] ∧ r.rootStmt.imports = ["left", "right", "left", "base"] := by
  have hrun : (do
      let m ← (parse importingText).toOption
      let r ← (m.check importSettings).toOption
      if r.imported.map (·.1) = ["base", "left", "right"] ∧
        r.rootStmt.imports = ["left", "right", "left", "base"] then pure () else none) = some () := by decide +kernel
  cases hm : parse importingText with
  | error e => simp [hm, Except.toOption] at hrun
  | ok m =>
    cases hr : m.check importSettings with
    | error e => simp [hm, hr, Except.toOption] at hrun
    | ok r =>
      refine ⟨m, r, rfl, hr, ?_⟩
      simpa [hm, hr, Except.toOption] using hrun

theorem check_importsInOrder_sample :
    ∃ m r, parse importingText = .ok m ∧ m.check importSettings = .ok r ∧
      r.imported.map (·.1) = ["base", "left", "right"] ∧ r.rootStmt.imports = ["left", "right", "left", "base"] ∧
      (∀ base, m.checkWith (Check.importing^[m.importDepth importSettings] base) importSettings = .ok r) ∧
      m.ImportsInOrder importSettings r := by
  obtain ⟨m, r, hparse, hcheck, hnames, himports⟩ := imports_run
  have hfinite : importSettings.Finite := by
    intro x hx name n hn
    cases hx
    simp only [Except.ok.injEq, Option.bind_eq_some_iff] at hn
    obtain ⟨source, hsource, -⟩ := hn
    exact List.mem_map.mpr ⟨_, Check.mem_of_lookup hsource, rfl⟩
  have hstrict : importSettings.lenient = false := rfl
  obtain ⟨hends, horder⟩ := check_importsInOrder (m := m) hstrict hfinite
  exact ⟨m, r, hparse, hcheck, hnames, himports, fun base => (hends base).trans hcheck, horder r hcheck⟩

end Module

end Shading
