import Mathlib.Data.List.Nodup
import Shading.Proofs.Check.Sustaining
import Shading.Proofs.Module.Imports
import Shading.Proofs.Module.Soundness

/-! The constants of a module that has been checked, and those of the session at the end of its check. -/
namespace Shading

namespace Check

namespace Session

variable {α : Type} {f : Session → α}

/-- Reserving numbers leaves everything else as it is, other than the modules that are known from before. -/
theorem reserve_eq (hf : ∀ (s : Session) v c g t a p, f { s with
      nextVar := v, nextConst := c, nextFunc := g, nextStruct := t, nextAlias := a, previous := p } = f s)
    (s : Session) (m : Module) : f (s.reserve m) = f s := by
  have hvars {β : Type} (id : β → Int) (bs : List β) (s : Session) :
      f (bs.foldl (fun s b => s.reserveVar (id b)) s) = f s := by
    induction bs generalizing s with
    | nil => rfl
    | cons b bs ih => exact (ih _).trans (hf s _ s.nextConst s.nextFunc s.nextStruct s.nextAlias s.previous)
  have hstmt (s : Session) (x : Stmt) : f (s.reserveStmt x) = f s := by
    cases x with
    | letVar | forRange | forEach => exact hf s _ s.nextConst s.nextFunc s.nextStruct s.nextAlias s.previous
    | const | option => exact hf s s.nextVar _ s.nextFunc s.nextStruct s.nextAlias s.previous
    | «alias» => exact hf s s.nextVar s.nextConst s.nextFunc s.nextStruct _ s.previous
    | struct => exact hf s s.nextVar s.nextConst s.nextFunc _ s.nextAlias s.previous
    | function span h body =>
      exact (hvars FnParam.id h.params _).trans (hf s s.nextVar s.nextConst _ s.nextStruct s.nextAlias s.previous)
    | external span set vars => exact hvars External.id vars s
    | _ => rfl
  have hnodes (s : Session) (m : Module) : f (s.reserveNodes m) = f s := by
    unfold reserveNodes
    generalize m.rootStmt.nodes.filterMap Node.stmt? = xs
    induction xs generalizing s with
    | nil => rfl
    | cons x xs ih => exact (ih _).trans (hstmt _ _)
  have himported (is : List (Text × Module)) (s : Session) :
      f (is.foldl (fun s i => reserveNodes { s with previous := i :: s.previous } i.2) s) = f s := by
    induction is generalizing s with
    | nil => rfl
    | cons i is ih =>
      exact (ih _).trans ((hnodes _ _).trans (hf s s.nextVar s.nextConst s.nextFunc s.nextStruct s.nextAlias _))
  exact (himported _ _).trans (hnodes _ _)

/-- Nothing has been declared when a check starts. -/
theorem opened_empty (m : Module) :
    m.opened.vars = [] ∧ m.opened.constants = [] ∧ m.opened.functions = [] ∧ m.opened.structs = [] ∧
      m.opened.finished = [] := by
  refine ⟨?_, ?_, ?_, ?_, (reserve_modules {} m).1⟩
  · exact reserve_eq (f := Session.vars) (fun _ _ _ _ _ _ _ => rfl) {} m
  · exact reserve_eq (f := Session.constants) (fun _ _ _ _ _ _ _ => rfl) {} m
  · exact reserve_eq (f := Session.functions) (fun _ _ _ _ _ _ _ => rfl) {} m
  · exact reserve_eq (f := Session.structs) (fun _ _ _ _ _ _ _ => rfl) {} m

end Session

theorem upheld_opened (settings : CheckSettings) {m : Module} (h : m.Regular) :
    State.Upheld settings { session := m.opened } := by
  obtain ⟨hvars, hconstants, hfunctions, hstructs, hfinished⟩ := Session.opened_empty m
  obtain ⟨-, hmissing, hprevious⟩ := Session.reserve_modules {} m
  have htyped : m.opened.Typed := by
    refine ⟨?_, ?_, ?_, ?_, ?_, ?_, hmissing⟩
    · exact hvars ▸ List.forall_mem_nil _
    · exact hconstants ▸ List.forall_mem_nil _
    · exact hfunctions ▸ List.forall_mem_nil _
    · exact hstructs ▸ List.forall_mem_nil _
    · exact hfinished ▸ List.forall_mem_nil _
    · intro x hx
      replace hx : x ∈ m.imported.reverse ++ [] := hprevious ▸ hx
      rw [List.append_nil, List.mem_reverse] at hx
      exact h.imported x hx
  constructor
  · exact ⟨htyped, List.forall_mem_nil _, List.forall_mem_nil _, rfl, List.forall_mem_nil _⟩
  · simp only [Session.finishedConstants, hfinished]
    exact List.forall_mem_nil _
  · exact hfinished ▸ List.forall_mem_nil _

/-- A constant has one type, if its number belongs to it alone. -/
theorem Session.recorded_unique {s : Session} (h : (s.constants.map (·.1)).Nodup) {id : Int} {t u : Ty}
    (ht : s.Recorded id t) (hu : s.Recorded id u) : t = u := by
  obtain ⟨c, hc, rfl⟩ := ht
  obtain ⟨d, hd, rfl⟩ := hu
  have hsame := List.inj_on_of_nodup_map h hc hd rfl
  cases hsame
  rfl

end Check

namespace Module

open Check (Session State)

variable {settings : CheckSettings} {m r : Module} {σ : State}

/-- The declarations of constants and options of a module and of those that it imports. -/
def constants (r : Module) : List Stmt := r.units.flatMap fun u => u.rootStmt.constants

/-- The numbers of constants and options. -/
def constantIds (r : Module) : List Int := r.constants.map Stmt.constantId

theorem constantIds_eq (r : Module) :
    r.constantIds = r.imported.flatMap (fun x => x.2.rootStmt.constants.map Stmt.constantId) ++
      r.rootStmt.constants.map Stmt.constantId := by
  simp only [constantIds, constants, units, List.flatMap_append, List.flatMap_map, List.flatMap_singleton,
    List.map_append, List.map_flatMap]

/-- What the check of a module results in, and the state at its end. -/
def Ends (settings : CheckSettings) (m r : Module) (σ : State) : Prop :=
  ∃ x, Check.body (Check.loader (m.importDepth settings)) m { settings } { session := m.opened } = .ok (x, σ) ∧
    r = { x with imported := Check.modules σ.session.finished }

theorem ends_of_check (h : m.check settings = .ok r) : ∃ σ, m.Ends settings r σ := by
  rw [check_eq, checkWith] at h
  cases hrun : Check.body (Check.loader (m.importDepth settings)) m { settings } { session := m.opened } with
  | error e =>
    rw [hrun] at h
    cases h
  | ok x =>
    rw [hrun] at h
    cases h
    exact ⟨x.2, x.1, hrun, rfl⟩

namespace Ends

theorem check (h : m.Ends settings r σ) : m.check settings = .ok r := by
  obtain ⟨x, hrun, rfl⟩ := h
  rw [check_eq, checkWith, hrun]
  rfl

theorem constants (h : m.Ends settings r σ) : r.constants = σ.session.finishedConstants ++ r.rootStmt.constants := by
  obtain ⟨x, -, rfl⟩ := h
  simp only [Module.constants, units, Check.modules, Session.finishedConstants, List.flatMap_append, List.map_map,
    List.flatMap_map, List.flatMap_singleton]
  rfl

variable (hm : m.Regular) (hsettings : settings.Regular) (h : m.Ends settings r σ)

include hm hsettings h

theorem adds : σ.Upheld settings ∧ m.opened.Enlarges r.rootStmt.constants σ.session ∧
    Check.Adds settings σ.session [m.rootStmt] [r.rootStmt] r.rootStmt.constants := by
  obtain ⟨x, hrun, rfl⟩ := h
  obtain ⟨hσ, ds, hlarger, hadds⟩ := (Check.sustains_body (Check.supplies_loader _) hm.root).run hsettings rfl
    (Check.upheld_opened _ hm) rfl hrun
  have hds : ds = x.rootStmt.constants := hadds.constants.symm.trans (List.flatMap_singleton _ _)
  subst hds
  exact ⟨hσ, hlarger, hadds⟩

/-- All modules of the result are sound, and the declarations of constants in them are entered. -/
theorem unit {u : Module} (hu : u ∈ r.units) :
    u.rootStmt.Sound σ.session.Recorded ∧ ∀ d ∈ u.rootStmt.constants, d.Entered settings.values σ.session := by
  obtain ⟨hσ, -, hadds⟩ := h.adds hm hsettings
  rcases List.mem_append.mp hu with hu | hu
  · obtain ⟨x, -, rfl⟩ := h
    rw [show ({ x with imported := Check.modules σ.session.finished } : Module).imported =
      Check.modules σ.session.finished from rfl, Check.modules, List.map_map] at hu
    obtain ⟨f, hf, rfl⟩ := List.mem_map.mp hu
    exact ⟨(hσ.typed.session.finished f hf).1, fun d hd => hσ.entered d (List.mem_flatMap.mpr ⟨f, hf, hd⟩)⟩
  · obtain rfl := List.mem_singleton.mp hu
    exact ⟨hadds.sound_one, hadds.entered⟩

/-- A result is regular, like what it comes from. -/
theorem regular : r.Regular := by
  refine ⟨(h.unit hm hsettings (List.mem_append_right _ List.mem_cons_self)).1.regular, fun x hx => ?_⟩
  exact (h.unit hm hsettings (List.mem_append_left _ (List.mem_map_of_mem hx))).1.regular

/-- The session has a constant for each declaration in the result. -/
theorem perm : (σ.session.constants.map (·.1)).Perm r.constantIds := by
  rw [List.perm_iff_count]
  intro id
  obtain ⟨-, hconstants, -, -, hfinished⟩ := Session.opened_empty m
  have hcount := (h.adds hm hsettings).2.1.counts id
  have hopened : m.opened.uses id = 0 := by rw [Session.uses, hconstants]; rfl
  have hentered : m.opened.finishedConstants = [] := by rw [Session.finishedConstants, hfinished]; rfl
  have hnone : Session.declared [] id = 0 := rfl
  rw [hopened, hentered, hnone] at hcount
  have hall : Session.declared r.constants id =
      Session.declared σ.session.finishedConstants id + Session.declared r.rootStmt.constants id := by
    rw [h.constants, Session.declared_append]
  unfold Session.uses at hcount
  unfold Session.declared at hcount hall
  unfold constantIds
  omega

/-- Each imported module in the result comes from one that is found under its name. The numbers of constants that have
one are kept. -/
theorem numbers : Stmt.Keeps m.rootStmt.constants r.rootStmt.constants ∧ ∀ x ∈ r.imported, ∃ u,
    Check.Finds settings m.imported.reverse x.1 u ∧ Stmt.Keeps u.rootStmt.constants x.2.rootStmt.constants := by
  obtain ⟨hσ, hlarger, hadds⟩ := h.adds hm hsettings
  refine ⟨?_, fun x hx => ?_⟩
  · have hkeeps := hadds.numbers
    rwa [List.flatMap_singleton] at hkeeps
  · obtain ⟨y, -, rfl⟩ := h
    obtain ⟨f, hf, rfl⟩ := List.mem_map.mp hx
    obtain ⟨u, hu, hkeeps⟩ := hσ.numbers f hf
    have hprevious : σ.session.previous = m.imported.reverse := by
      rw [hlarger.previous, opened, (Session.reserve_modules {} m).2.2]
      exact List.append_nil _
    exact ⟨u, hprevious ▸ hu, hkeeps⟩

/-- If numbers tell constants apart in a module, they do so in what it is checked to. -/
theorem nodup_constantIds (hresolver : settings.resolver = none) (hids : ∀ d ∈ m.constants, d.constantId ≠ 0)
    (hnodup : m.constantIds.Nodup) : r.constantIds.Nodup := by
  have hfinite : settings.Finite := by
    intro x hx
    rw [hresolver] at hx
    cases hx
  obtain ⟨hroot, himported⟩ := h.numbers hm hsettings
  have hnames : r.imported.Pairwise fun x y => x.1 ≠ y.1 := by
    obtain ⟨cs, s, himports, hmodules, -, -⟩ := session_of_check hsettings.strict hfinite h.check
    have hnodup : (r.imported.map (·.1)).Nodup := by
      rw [hmodules, Check.modules, List.map_map]
      exact (himports.orderly (orderly_opened m)).nodup
    exact List.pairwise_map.mp hnodup
  rw [constantIds_eq] at hnodup ⊢
  obtain ⟨hmodules, hown, hapart⟩ := List.nodup_append'.mp hnodup
  obtain ⟨heach, hpairs⟩ := List.nodup_flatMap.mp hmodules
  have hidsOf {u : Module} (hu : u ∈ m.units) : ∀ d ∈ u.rootStmt.constants, d.constantId ≠ 0 :=
    fun d hd => hids d (List.mem_flatMap.mpr ⟨u, hu, hd⟩)
  have hkept : ∀ x ∈ r.imported, ∃ u, (x.1, u) ∈ m.imported ∧
      (x.2.rootStmt.constants.map Stmt.constantId).Sublist (u.rootStmt.constants.map Stmt.constantId) := by
    intro x hx
    obtain ⟨u, hu | ⟨-, y, hy, -⟩, hkeeps⟩ := himported x hx
    · have hmem : (x.1, u) ∈ m.imported := List.mem_reverse.mp (Check.mem_of_lookup hu)
      exact ⟨u, hmem, hkeeps (hidsOf (List.mem_append_left _ (List.mem_map_of_mem hmem)))⟩
    · rw [hresolver] at hy
      cases hy
  have hrootKept := hroot (hidsOf (List.mem_append_right _ List.mem_cons_self))
  refine List.nodup_append'.mpr ⟨List.nodup_flatMap.mpr ⟨fun x hx => ?_, ?_⟩, hown.sublist hrootKept, ?_⟩
  · obtain ⟨u, hu, hsub⟩ := hkept x hx
    exact (heach _ hu).sublist hsub
  · have hsymm : Std.Symm (Function.onFun List.Disjoint fun x : Text × Module =>
        x.2.rootStmt.constants.map Stmt.constantId) := ⟨fun _ _ hdisjoint => hdisjoint.symm⟩
    refine hnames.imp_of_mem fun {x y} hx hy hne => ?_
    obtain ⟨u, hu, hsub⟩ := hkept x hx
    obtain ⟨v, hv, hsub'⟩ := hkept y hy
    have hpair : (x.1, u) ≠ (y.1, v) := fun heq => hne (Prod.mk.inj heq).1
    have hdisjoint := hpairs.forall hu hv hpair
    exact List.disjoint_of_subset_left hsub.subset (List.disjoint_of_subset_right hsub'.subset hdisjoint)
  · refine List.disjoint_of_subset_right hrootKept.subset fun id hid => ?_
    obtain ⟨x, hx, hid⟩ := List.mem_flatMap.mp hid
    obtain ⟨u, hu, hsub⟩ := hkept x hx
    exact hapart (List.mem_flatMap.mpr ⟨_, hu, hsub.subset hid⟩)

end Ends

end Module

namespace Stmt

def walked (x : Stmt) : List Stmt := x.nodes.filterMap Node.stmt?

theorem walked_eq {x : Stmt} (h : x.isAbsent = false) : x.walked = x :: x.children.flatMap walked := by
  rw [walked, filterMap_stmt_nodes h, List.filterMap_flatMap]
  rfl

theorem mem_walked {x y : Stmt} : y ∈ x.walked ↔ .stmt y ∈ x.nodes := by
  rw [walked, List.mem_filterMap]
  constructor
  · rintro ⟨n, hn, hy⟩
    cases n with
    | expr e => cases hy
    | stmt z =>
      cases hy
      exact hn
  · exact fun h => ⟨_, h, rfl⟩

/-- The declarations of constants that a walk reaches are those of the statement. -/
theorem mem_constants {x d : Stmt} : d ∈ x.constants ↔ .stmt d ∈ x.nodes ∧ d ∈ constant d := by
  constructor
  · intro h
    obtain ⟨y, hy, hd⟩ := List.mem_flatMap.mp h
    have hyd : y = d := by
      cases y with
      | const | option => exact (List.mem_singleton.mp hd).symm
      | _ => cases hd
    subst hyd
    exact ⟨mem_walked.mp hy, hd⟩
  · rintro ⟨hd, hself⟩
    exact List.mem_flatMap.mpr ⟨d, mem_walked.mpr hd, hself⟩

/-- If the declarations of constants are entered, so is every statement. -/
theorem entered_of_constants {given : OptionValues} {s : Check.Session} {x y : Stmt}
    (h : ∀ d ∈ x.constants, d.Entered given s) (hy : .stmt y ∈ x.nodes) : y.Entered given s := by
  cases y with
  | const span d => exact h _ (mem_constants.mpr ⟨hy, List.mem_cons_self⟩)
  | option span d => exact h _ (mem_constants.mpr ⟨hy, List.mem_cons_self⟩)
  | _ => trivial

end Stmt

theorem Constants.get?_set (table : Constants) (id : Int) (v : Value) (i : Int) :
    (table.set id v).get? i = if i = id then some v else table.get? i := by
  unfold get? set
  rw [List.find?_cons]
  by_cases hi : i = id
  · simp [hi]
  · have hne : (id == i) = false := by simpa using Ne.symm hi
    rw [if_neg hi, hne, List.find?_filter]
    refine congrArg (Option.map _) (congrArg (List.find? · _) (funext fun x => ?_))
    by_cases hx : x.1 = i
    · simp [hx, hi]
    · simp [hx]

theorem Check.nodup_idsOf {ks : List Key} (h : ks.Nodup) (space : Space) : (idsOf space ks).Nodup := by
  refine (h.filter _).map_on fun k hk l hl heq => ?_
  have hkspace : k.1 = space := by simpa using (List.mem_filter.mp hk).2
  have hlspace : l.1 = space := by simpa using (List.mem_filter.mp hl).2
  exact Prod.ext (hkspace.trans hlspace.symm) heq

theorem Stmt.idsOf_own (y : Stmt) :
    Check.idsOf .constant ((y.own {}).map Referent.key) = (constant y).map constantId := by
  cases y with
  | function span h body => simp [own, constant, Check.idsOf, Referent.key, FnParam.declaration, Function.comp_def]
  | external span set vars => simp [own, constant, Check.idsOf, Referent.key, External.declaration, Function.comp_def]
  | _ => rfl

/-- What declares a constant itself has its number. -/
theorem Stmt.constantId_of_own {given : OptionValues} {y : Stmt} {id : Int} {t : Ty} {v : Option Value}
    (h : Referent.constant id t v ∈ y.own given) : id ∈ (constant y).map constantId := by
  have hkey : (Space.constant, id) ∈ (y.own given).map Referent.key := List.mem_map_of_mem h
  rw [map_key_own] at hkey
  rw [← idsOf_own]
  exact Check.mem_idsOf.mpr hkey

namespace Module

theorem idsOf_keys (r : Module) : Check.idsOf .constant r.keys = r.constantIds := by
  have hunit (x : Stmt) : Check.idsOf .constant x.keys = x.constants.map Stmt.constantId := by
    rw [Stmt.keys, Stmt.declarations, Stmt.constants, Stmt.gather]
    induction x.nodes.filterMap Node.stmt? with
    | nil => rfl
    | cons y ys ih =>
      rw [List.flatMap_cons, List.map_append, Check.idsOf_append, Stmt.idsOf_own, ih, List.flatMap_cons, List.map_append]
  rw [keys, constantIds, constants]
  induction r.units with
  | nil => rfl
  | cons u us ih => rw [List.flatMap_cons, Check.idsOf_append, hunit, ih, List.flatMap_cons, List.map_append]

/-- Numbers tell constants apart, and none of them is zero. -/
theorem ChecksTo.constantIds {settings : CheckSettings} {m r : Module} (h : ChecksTo settings m r) :
    r.constantIds.Nodup ∧ ∀ d ∈ r.constants, d.constantId ≠ 0 := by
  obtain ⟨hnodup, hpositive⟩ := h.keys_bounds
  rw [← r.idsOf_keys]
  refine ⟨Check.nodup_idsOf hnodup _, fun d hd => ?_⟩
  have hmem : d.constantId ∈ r.constantIds := List.mem_map_of_mem hd
  rw [← r.idsOf_keys] at hmem
  have hone := hpositive _ (Check.mem_idsOf.mp hmem)
  dsimp only at hone
  omega

/-- Parsed modules and settings under which modules are looked up among parsed ones are regular. -/
theorem ChecksTo.regular {settings : CheckSettings} {m r : Module} (h : ChecksTo settings m r) :
    m.Regular ∧ settings.Regular := by
  obtain ⟨source, hsource⟩ := h.parsed
  refine ⟨(written_parse hsource).regular, h.strict, fun x hx name n hn => ?_, h.formed⟩
  obtain ⟨source, hsource⟩ := h.found x hx name n hn
  exact (written_parse hsource).regular.root

end Module

end Shading
