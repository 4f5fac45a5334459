import Mathlib.Data.List.Nodup
import Mathlib.Logic.Relation
import Shading.Proofs.Check.Loading
import Shading.Proofs.Parser.Written

/-! Modules that have been checked, along with those that they import, and what holds of every one that the check
accepts. -/
namespace Shading

open Stmt (Everywhere)

namespace Module

/-- The modules that a checked module consists of: those that it imports, each of them after those that it
imports itself, and the module itself as the last one. -/
def units (r : Module) : List Module := r.imported.map (·.2) ++ [r]

/-- All declarations of a checked module and of those that it imports. -/
def declared (given : OptionValues) (r : Module) : List Referent :=
  r.units.flatMap fun u => u.rootStmt.declarations given

/-- The numbers of all declarations. -/
def keys (r : Module) : List Key := r.units.flatMap fun u => u.rootStmt.keys

/-- A property holds of every node of a checked module and of those that it imports, each at its place. What a
module imports comes before it. -/
structure Throughout (given : OptionValues) (P : Place → Node → Prop) (r : Module) : Prop where
  imported : ∀ before x after, r.imported = before ++ x :: after →
    Everywhere (.among given before) P {} x.2.rootStmt
  root : Everywhere (.among given r.imported) P {} r.rootStmt

/-- A check of a parsed module that has a result. Modules that are imported are parsed ones as well, none may
be missing, and there are numbers for all declarations. The components of each value that is given for an
option share one type. -/
structure ChecksTo (settings : CheckSettings) (m r : Module) : Prop where
  parsed : ∃ source, parse source = .ok m
  found : ∀ x, settings.resolver = some x → ∀ name n, x.find name = .ok (some n) → ∃ source, parse source = .ok n
  strict : settings.lenient = false
  formed : ∀ name v, settings.values.get? name = some v → v.HasType v.type
  run : m.check settings = .ok r
  room : r.keys.length + 1 < Serial.limit

end Module

/-- The import of modules brings declarations of theirs. -/
theorem Surroundings.importsWithin_among {given : OptionValues} {Δ : List Referent} (ms : List (Text × Module))
    (h : ∀ m ∈ ms, m.2.rootStmt.declarations given ⊆ Δ) : (among given ms).ImportsWithin Δ := by
  induction ms using List.reverseRecOn with
  | nil => exact nofun
  | append_singleton ms m ih =>
    obtain ⟨hms, hm⟩ := List.forall_mem_append.mp h
    intro name ds hds
    simp only [among, Module.brought_concat, List.lookup_append] at hds
    rcases Option.or_eq_some_iff.mp hds with hds | ⟨-, hds⟩
    · exact ih hms hds
    · rw [List.lookup_cons] at hds
      split at hds
      · cases hds
        exact Stmt.declares_subset_of (ih hms) _ (hm m List.mem_cons_self)
      · cases hds

namespace Module.Throughout

variable {given : OptionValues} {P : Place → Node → Prop} {r u : Module}

/-- Each module of a checked one is checked after some others. -/
theorem unit (h : r.Throughout given P) (hu : u ∈ r.units) :
    ∃ before : List (Text × Module), (Surroundings.among given before).ImportsWithin (r.declared given) ∧
      u.rootStmt.declarations given ⊆ r.declared given ∧ Everywhere (.among given before) P {} u.rootStmt := by
  have hdeclared {v : Module} (hv : v ∈ r.units) : v.rootStmt.declarations given ⊆ r.declared given :=
    fun d hd => List.mem_flatMap.mpr ⟨v, hv, hd⟩
  have himported {x : Text × Module} (hx : x ∈ r.imported) : x.2.rootStmt.declarations given ⊆ r.declared given :=
    hdeclared (List.mem_append_left _ (List.mem_map_of_mem hx))
  rcases List.mem_append.mp hu with hmem | hmem
  · obtain ⟨x, hx, rfl⟩ := List.mem_map.mp hmem
    obtain ⟨before, after, hsplit⟩ := List.append_of_mem hx
    refine ⟨before, Surroundings.importsWithin_among before fun m hm => himported ?_, hdeclared hu,
      h.imported before x after hsplit⟩
    rw [hsplit]
    exact List.mem_append_left _ hm
  · rw [List.mem_singleton.mp hmem]
    exact ⟨r.imported, Surroundings.importsWithin_among _ fun m hm => himported hm,
      hdeclared (List.mem_append_right _ List.mem_cons_self), h.root⟩

variable (hP : ∀ {q s h b}, P q (.stmt (.function s h b)) → q.function = none)
include hP

/-- Whatever a walk reaches has the property at some place. -/
theorem of_mem_nodes (h : r.Throughout given P) (hu : u ∈ r.units) {n : Node} (hn : n ∈ u.rootStmt.nodes) :
    ∃ q : Place, q.context ⊆ r.declared given ∧ P q n := by
  obtain ⟨before, himports, hdeclared, hu⟩ := h.unit hu
  obtain ⟨q, hq, -, hqn⟩ := hu.of_mem_nodes himports hP (List.nil_subset _) hdeclared hn
  exact ⟨q, hq, hqn⟩

/-- Whatever a walk reaches in the body of a function has the property at some place in that function. -/
theorem in_body (h : r.Throughout given P) (hu : u ∈ r.units) {span : Span} {head : FnHead} {body : List Stmt}
    (hfunction : .stmt (.function span head body) ∈ u.rootStmt.nodes) {c : Stmt} (hc : c ∈ body) {n : Node}
    (hn : n ∈ c.nodes) :
    ∃ q : Place, q.context ⊆ r.declared given ∧ q.function = some head.signature ∧ P q n := by
  obtain ⟨before, himports, hdeclared, hu⟩ := h.unit hu
  exact hu.in_body himports hP (List.nil_subset _) hdeclared hfunction hc hn

end Module.Throughout

theorem Serial.after_zero {n : Int} (h : 1 ≤ n) : Serial.after n 0 = n := by
  unfold Serial.after
  rw [if_neg (by omega)]

namespace Check.Session

variable {s : Session}

theorem reserveVar_zero (h : 1 ≤ s.nextVar) : s.reserveVar 0 = s := by
  rw [reserveVar, Serial.after_zero h]

theorem foldl_reserveVar (h : 1 ≤ s.nextVar) {α : Type} (id : α → Int) {as : List α} (has : ∀ a ∈ as, id a = 0) :
    as.foldl (fun s a => s.reserveVar (id a)) s = s := by
  induction as with
  | nil => rfl
  | cons a as ih =>
    obtain ⟨ha, has⟩ := List.forall_mem_cons.mp has
    rw [List.foldl_cons, ha, reserveVar_zero h, ih has]

theorem reserveStmt_written (hs : ∀ space, 1 ≤ s.next space) {stmt : Stmt} (h : stmt.IsWritten) :
    s.reserveStmt stmt = s := by
  have hvar : 1 ≤ s.nextVar := hs .variable
  have hconst : 1 ≤ s.nextConst := hs .constant
  have hfunc : 1 ≤ s.nextFunc := hs .function
  have hstruct : 1 ≤ s.nextStruct := hs .struct
  have halias : 1 ≤ s.nextAlias := hs .alias
  have hown := h.1
  cases stmt with
  | letVar span d =>
    have hid : d.id = 0 := hown _ List.mem_cons_self
    rw [reserveStmt, hid, reserveVar_zero hvar]
  | forRange span head body | forEach span head body =>
    have hid : head.id = 0 := hown _ List.mem_cons_self
    rw [reserveStmt, hid, reserveVar_zero hvar]
  | const span d | option span d =>
    have hid : d.id = 0 := hown _ List.mem_cons_self
    rw [reserveStmt, hid, Serial.after_zero hconst]
  | «alias» span d =>
    have hid : d.id = 0 := hown _ List.mem_cons_self
    rw [reserveStmt, hid, Serial.after_zero halias]
  | struct span d =>
    have hid : d.id = 0 := hown _ List.mem_cons_self
    rw [reserveStmt, hid, Serial.after_zero hstruct]
  | external span set vars =>
    exact foldl_reserveVar hvar External.id fun v hv => hown _ (List.mem_map_of_mem hv)
  | function span head body =>
    have hid : head.id = 0 := hown _ List.mem_cons_self
    rw [reserveStmt, hid, Serial.after_zero hfunc]
    exact foldl_reserveVar hvar FnParam.id fun p hp => hown _ (List.mem_cons_of_mem _ (List.mem_map_of_mem hp))
  | _ => rfl

theorem reserve_written (hs : ∀ space, 1 ≤ s.next space) {m : Module} (h : m.Written) : s.reserve m = s := by
  have hfold (ss : List Stmt) (hss : ∀ x ∈ ss, x.IsWritten) : ss.foldl reserveStmt s = s := by
    induction ss with
    | nil => rfl
    | cons x ss ih =>
      obtain ⟨hx, hss⟩ := List.forall_mem_cons.mp hss
      rw [List.foldl_cons, reserveStmt_written hs hx, ih hss]
  rw [reserve, h.imported, List.foldl_nil, reserveNodes]
  refine hfold _ fun x hx => ?_
  obtain ⟨n, hn, hx⟩ := List.mem_filterMap.mp hx
  cases n with
  | expr e => cases hx
  | stmt x' =>
    cases hx
    exact h.root _ hn

end Check.Session

namespace Module.ChecksTo

open Check

variable {settings : CheckSettings} {m r : Module}

/-- The run of a check that has a result. -/
theorem body (h : ChecksTo settings m r) :
    ∃ depth own result σ', Check.body (loader depth) m { settings } { session := { inProgress := own } } = .ok (result, σ') ∧
      r = { result with imported := modules σ'.session.finished } := by
  obtain ⟨source, hsource⟩ := h.parsed
  have hrun := h.run
  unfold Module.check at hrun
  rw [Session.reserve_written (fun space => by cases space <;> decide) (written_parse hsource)] at hrun
  dsimp only at hrun
  generalize (if (m.metadata.elim [] (·.name)).isEmpty = true then [] else [m.metadata.elim [] (·.name)]) = own at hrun
  generalize m.imported.length + settings.resolver.elim 0 (·.names.length) + 1 = depth at hrun
  cases hbody : Check.body (loader depth) m { settings } { session := { inProgress := own } } with
  | error e =>
    rw [hbody] at hrun
    cases hrun
  | ok x =>
    rw [hbody] at hrun
    cases hrun
    exact ⟨depth, own, x.1, x.2, hbody, rfl⟩

theorem keys_perm {fs : List (Text × Exported)} (h : r.imported = modules fs) :
    (r.rootStmt.keys ++ moduleKeys fs).Perm r.keys := by
  have hkeys : r.keys = moduleKeys fs ++ r.rootStmt.keys := by
    simp only [keys, units, h, modules, List.map_map, List.flatMap_append, List.flatMap_map, List.flatMap_singleton,
      moduleKeys]
    rfl
  rw [hkeys]
  exact List.perm_append_comm

/-- Numbers are given out for the declarations of all modules, each number once, and the rules hold in all
modules. -/
theorem sound (h : ChecksTo settings m r) :
    (∃ s : Session, Numbered {} s r.keys) ∧ r.Throughout settings.values Node.Valid := by
  obtain ⟨source, hsource⟩ := h.parsed
  obtain ⟨depth, own, result, σ', hbody, hr⟩ := h.body
  have hready : Ready { settings } { session := { inProgress := own } } := by
    refine ⟨h.strict, fun x hx name n hn => ?_, rfl, rfl⟩
    obtain ⟨source, hsource⟩ := h.found x hx name n hn
    exact (written_parse hsource).root
  obtain ⟨fs, hadvances, hdone⟩ := body_ok (loads_loader depth) (written_parse hsource).root hready rfl rfl hbody
  have hfinished : σ'.session.finished = fs := hadvances.finished
  have hroot : r.rootStmt = result.rootStmt := by rw [hr]; rfl
  have himported : r.imported = modules fs := by rw [hr, hfinished]
  have hperm := keys_perm himported
  rw [hroot] at hperm
  have hroom : Session.Room { inProgress := own } (result.rootStmt.keys ++ moduleKeys fs) := by
    refine Session.Room.perm (fun space => ?_) hperm.symm
    have hlength := length_idsOf_le space r.keys
    have hnext : Session.next { inProgress := own } space = 1 := by cases space <;> rfl
    have := h.room
    rw [hnext]
    omega
  have hempty : Session.Sound { inProgress := own } settings.values := by
    refine ⟨nofun, nofun, nofun, nofun, fun before f after heq => ?_⟩
    cases before <;> cases heq
  obtain ⟨hsound, -, hcompletes⟩ := hdone h.formed hroom hempty
  refine ⟨⟨σ'.session, ?_⟩, fun before x after heq => ?_, ?_⟩
  · exact (hadvances.numbered.perm hperm).congr (fun space => by cases space <;> rfl) fun _ => rfl
  · rw [himported] at heq
    obtain ⟨before', rest, rfl, rfl, hrest⟩ := List.map_eq_append_iff.mp heq
    obtain ⟨f, after', rfl, rfl, -⟩ := List.map_eq_cons_iff.mp hrest
    exact (hsound.finished before' f after' hfinished).valid
  · rw [himported, ← hfinished, hroot]
    exact (hcompletes []).valid

end Module.ChecksTo

end Shading

-- What holds of every module that the check accepts: its expressions have the types that the rules give them, each
-- reference leads to one declaration, and functions do not call each other in circles.
namespace Shading

open Stmt (Everywhere)

/-- The rules of typing for a node at its place. -/
def Node.Typed (p : Place) : Node → Prop
  | .expr e => e.type.Proper ∧ e.Consistent p.context
  | .stmt s => s.Consistent p

/-- The number of the declaration that an expression refers to. -/
def Expr.key? : Expr → Option Key
  | .var _ id => some (.variable, id)
  | .const _ id => some (.constant, id)
  | .function _ id => some (.function, id)
  | .structRef _ id => some (.struct, id)
  | _ => none

/-- A reference at a place leads to something that is declared before it, in a block, a loop or a function
that it stands in. -/
def Node.Resolved (p : Place) : Node → Prop
  | .expr e => ∀ k ∈ e.key?, ∃ d ∈ p.context, d.key = k
  | .stmt _ => True

theorem Node.Valid.typed {p : Place} {n : Node} (h : n.Valid p) : n.Typed p := by
  cases n with
  | expr e => exact ⟨h.1, h.2.1⟩
  | stmt s => exact h

theorem Node.Valid.resolved {p : Place} {n : Node} (h : n.Valid p) : n.Resolved p := by
  cases n with
  | stmt s => trivial
  | expr e =>
    obtain ⟨-, hconsistent, -⟩ := h
    intro k hk
    cases e with
    | var i id =>
      cases hk
      exact ⟨_, hconsistent, rfl⟩
    | const i id =>
      cases hk
      obtain ⟨v, hv⟩ := hconsistent
      exact ⟨_, hv, rfl⟩
    | function i id =>
      cases hk
      obtain ⟨f, hf, rfl, -⟩ := hconsistent
      exact ⟨_, hf, rfl⟩
    | structRef i id =>
      cases hk
      obtain ⟨s, hs, rfl, -⟩ := hconsistent
      exact ⟨_, hs, rfl⟩
    | _ => cases hk

/-- Functions are declared outside functions. -/
theorem Node.Valid.outside {q : Place} {s : Span} {h : FnHead} {b : List Stmt}
    (hvalid : Node.Valid q (.stmt (.function s h b))) : q.function = none := hvalid.1

theorem Check.nodup_of_idsOf {ks : List Key} (h : ∀ space, (idsOf space ks).Nodup) : ks.Nodup := by
  induction ks with
  | nil => exact List.nodup_nil
  | cons k ks ih =>
    obtain ⟨space, id⟩ := k
    have hself := h space
    rw [idsOf_cons_self, List.nodup_cons] at hself
    refine List.nodup_cons.mpr ⟨fun hmem => hself.1 (mem_idsOf.mpr hmem), ih fun other => ?_⟩
    by_cases heq : space = other
    · subst heq
      exact hself.2
    · have hother := h other
      rwa [idsOf_cons_ne heq] at hother

namespace Module

theorem Throughout.mono {given : OptionValues} {P Q : Place → Node → Prop} {r : Module} (h : r.Throughout given P)
    (hPQ : Stmt.Moves P Q) : r.Throughout given Q := by
  refine ⟨fun before x after heq => ?_, ?_⟩
  · exact Everywhere.mono (P := P) (Q := Q) hPQ (.refl _) (.refl _) _ (h.imported before x after heq)
  · exact Everywhere.mono (P := P) (Q := Q) hPQ (.refl _) (.refl _) _ h.root

theorem map_key_declared (given : OptionValues) (r : Module) : (r.declared given).map Referent.key = r.keys := by
  simp only [declared, keys, List.map_flatMap, Stmt.map_key_declarations]

/-- The rules of typing hold for whatever a walk through a module and those that it imports reaches. A node
in the body of a function follows the rules for that function. -/
structure WellTyped (given : OptionValues) (r : Module) : Prop where
  places : r.Throughout given Node.Typed
  nodes : ∀ u ∈ r.units, ∀ n ∈ u.rootStmt.nodes, ∃ q : Place, q.context ⊆ r.declared given ∧ n.Typed q
  bodies : ∀ u ∈ r.units, ∀ span head body, .stmt (.function span head body) ∈ u.rootStmt.nodes →
    ∀ c ∈ body, ∀ n ∈ c.nodes,
      ∃ q : Place, q.context ⊆ r.declared given ∧ q.function = some head.signature ∧ n.Typed q

/-- No two declarations of one space share a number, none has the number zero, and each reference leads to a
declaration that comes before it and in whose block it stands. -/
structure WellNumbered (given : OptionValues) (r : Module) : Prop where
  nodup : r.keys.Nodup
  nonzero : ∀ k ∈ r.keys, k.2 ≠ 0
  references : r.Throughout given Node.Resolved

/-- A call of one function stands in the body of another one. Functions are known by their numbers. -/
def Calls (r : Module) (caller callee : Int) : Prop :=
  ∃ u ∈ r.units, ∃ span head body, .stmt (.function span head body) ∈ u.rootStmt.nodes ∧ head.id = caller ∧
    ∃ c ∈ body, ∃ i j args, .expr (.call i (.function j callee) args) ∈ c.nodes

/-- Functions call only such as are declared before them. Numbers are given out in the order in which
functions are declared. -/
structure CallsDescend (given : OptionValues) (r : Module) : Prop where
  before : ∀ caller callee, r.Calls caller callee → callee < caller
  acyclic : ∀ f, ¬ Relation.TransGen r.Calls f f
  /-- what is called is a declared function, and no entry point -/
  targets : ∀ u ∈ r.units, ∀ i target args, .expr (.call i target args) ∈ u.rootStmt.nodes →
    ∃ j id, target = .function j id ∧ (∃ f, .function f ∈ r.declared given ∧ f.id = id) ∧
      ∀ f, .function f ∈ r.declared given → f.id = id → f.isEntry = false

variable {settings : CheckSettings} {m r : Module}

/-- A check that has a result finds the type of every expression, and the types fit each other. -/
theorem ChecksTo.wellTyped (h : ChecksTo settings m r) : r.WellTyped settings.values := by
  obtain ⟨-, hvalid⟩ := h.sound
  refine ⟨hvalid.mono fun hpq hn => (hn.mono hpq).typed, fun u hu n hn => ?_, ?_⟩
  · obtain ⟨q, hq, hqn⟩ := hvalid.of_mem_nodes Node.Valid.outside hu hn
    exact ⟨q, hq, hqn.typed⟩
  · intro u hu span head body hfunction c hc n hn
    obtain ⟨q, hq, hf, hqn⟩ := hvalid.in_body Node.Valid.outside hu hfunction hc hn
    exact ⟨q, hq, hf, hqn.typed⟩

/-- Numbers are given out once, as long as there are some left. -/
theorem ChecksTo.keys_bounds (h : ChecksTo settings m r) :
    r.keys.Nodup ∧ ∀ k ∈ r.keys, 1 ≤ k.2 := by
  obtain ⟨⟨s, hnumbered⟩, -⟩ := h.sound
  have hbounds (space : Space) := (hnumbered space).bounds (by cases space <;> decide) (by
    have hlength := Check.length_idsOf_le space r.keys
    have hnext : Check.Session.next {} space = 1 := by cases space <;> rfl
    have hroom := h.room
    rw [hnext]
    omega)
  refine ⟨Check.nodup_of_idsOf fun space => (hbounds space).2.2, fun k hk => ?_⟩
  obtain ⟨-, hids, -⟩ := hbounds k.1
  have hnext : Check.Session.next {} k.1 = 1 := by cases k.1 <;> rfl
  have hle := (hids k.2 (Check.mem_idsOf.mpr hk)).1
  omega

/-- In the result of a check all declarations can be told apart, and all references lead to one of them. -/
theorem ChecksTo.wellNumbered (h : ChecksTo settings m r) : r.WellNumbered settings.values := by
  obtain ⟨hnodup, hpositive⟩ := h.keys_bounds
  obtain ⟨-, hvalid⟩ := h.sound
  refine ⟨hnodup, fun k hk hzero => ?_, hvalid.mono fun hpq hn => (hn.mono hpq).resolved⟩
  have hone := hpositive k hk
  omega

theorem ChecksTo.lt_of_calls (h : ChecksTo settings m r) {caller callee : Int} (hcalls : r.Calls caller callee) :
    callee < caller := by
  obtain ⟨u, hu, span, head, body, hfunction, rfl, c, hc, i, j, args, hcall⟩ := hcalls
  obtain ⟨-, hvalid⟩ := h.sound
  obtain ⟨q, -, hf, hqn⟩ := hvalid.in_body Node.Valid.outside hu hfunction hc hcall
  have hdescends := hqn.2.2.2 head.signature (by rw [hf]; rfl)
  exact hdescends

/-- The functions of a checked module form no circle of calls, and no entry point is called. -/
theorem ChecksTo.callsDescend (h : ChecksTo settings m r) : r.CallsDescend settings.values := by
  refine ⟨fun caller callee => h.lt_of_calls, fun f hcycle => ?_, ?_⟩
  · have hlt : ∀ g, Relation.TransGen r.Calls f g → g < f := by
      intro g hg
      induction hg with
      | single hcalls => exact h.lt_of_calls hcalls
      | tail _ hcalls ih => exact Int.lt_trans (h.lt_of_calls hcalls) ih
    exact Int.lt_irrefl f (hlt f hcycle)
  · intro u hu i target args hcall
    obtain ⟨-, hvalid⟩ := h.sound
    obtain ⟨q, hq, hqn⟩ := hvalid.of_mem_nodes Node.Valid.outside hu hcall
    obtain ⟨-, ⟨j, f, rfl, -, -, -⟩, ⟨g, hg, hid, hentry⟩, -⟩ := hqn
    refine ⟨j, f.id, rfl, ⟨g, hq hg, hid⟩, fun f' hf' hid' => ?_⟩
    -- numbers tell functions apart, so that this is the function that the call was checked against
    obtain ⟨hnodup, -⟩ := h.keys_bounds
    rw [← map_key_declared settings.values] at hnodup
    have hkey : (Referent.function f').key = (Referent.function g).key := by
      simp only [Referent.key, hid', hid]
    have heq := List.inj_on_of_nodup_map hnodup hf' (hq hg) hkey
    cases heq
    exact hentry

-- A module that imports another one. It has an option with a value and one without, loops, branches and calls, and its
-- lowerings declare temporary variables.
private def libraryText : Text := "module lib; [export] fn h(x: f32) -> f32 { return x * 0.5; }"

private def sampleText : Text := Text.join "\n" [
  "module; import h as g from lib;",
  "option N: i32;",
  "option F: bool = false;",
  "[cond(F)] fn s(k: f32) -> f32 \x7b return g(k); \x7d",
  "[cond(!F)] fn s(k: f32) -> f32 \x7b return k; \x7d",
  "fn t(m: mat4[f32]) -> f32",
  "\x7b",
  "  let x = 0.0;",
  "  for i in 0 -> N : 2",
  "  \x7b",
  "    if (i == 1) continue;",
  "    else if (i == 4) break;",
  "    x += s(f32(i));",
  "  \x7d",
  "  const if (F) return x;",
  "  let n = mat3[f32](m * m);",
  "  return x + n[0].x;",
  "\x7d"]

private def ofSource (source : Text) : Module :=
  match parse source with
  | .ok m => m
  | .error _ => {}

private def sampleSettings : CheckSettings where
  resolver := some ⟨["lib"], fun name => .ok (if name = ("lib" : Text) then some (ofSource libraryText) else none)⟩
  splitBranches := true
  reduceLoops := true
  removeMatrixCasts := true
  values := ⟨[(OptionValues.key "N", .i32 9)], List.pairwise_singleton _ _⟩

private theorem ofSource_of_isOk {source : Text} (h : (parse source).isOk) : parse source = .ok (ofSource source) := by
  unfold ofSource
  cases hm : parse source with
  | ok m => rfl
  | error e =>
    rw [hm] at h
    cases h

/-- Both texts are parsed and the check has a result, which has few declarations. -/
private theorem sample_runs : ∃ m r, parse sampleText = .ok m ∧ m.check sampleSettings = .ok r ∧
    r.keys.length + 1 < Serial.limit := by
  have hrun : (do
      let m ← (parse sampleText).toOption
      let r ← (m.check sampleSettings).toOption
      if r.keys.length + 1 < Serial.limit then pure () else none) = some () := by decide +kernel
  cases hm : parse sampleText with
  | error e => simp [hm, Except.toOption] at hrun
  | ok m =>
    cases hr : m.check sampleSettings with
    | error e => simp [hm, hr, Except.toOption] at hrun
    | ok r =>
      refine ⟨m, r, rfl, hr, ?_⟩
      simpa [hm, hr, Except.toOption] using hrun

private theorem sample_checksTo : ∃ m r, ChecksTo sampleSettings m r := by
  obtain ⟨m, r, hparse, hrun, hroom⟩ := sample_runs
  refine ⟨m, r, ⟨sampleText, hparse⟩, fun x hx name n hn => ?_, rfl, fun name v hv => ?_, hrun, hroom⟩
  · cases hx
    simp only [Except.ok.injEq, Option.ite_none_right_eq_some, Option.some.injEq] at hn
    obtain ⟨-, rfl⟩ := hn
    exact ⟨libraryText, ofSource_of_isOk (by decide +kernel)⟩
  · have hvalue : v = .i32 9 := by
      simp only [sampleSettings, OptionValues.get?, Table.get?, List.find?_cons, List.find?_nil] at hv
      split at hv
      · cases hv
        rfl
      · cases hv
    rw [hvalue]
    rfl

theorem wellTyped_sample :
    ∃ m r, ChecksTo sampleSettings m r ∧ r.WellTyped sampleSettings.values := by
  obtain ⟨m, r, h⟩ := sample_checksTo
  exact ⟨m, r, h, h.wellTyped⟩

theorem wellNumbered_sample :
    ∃ m r, ChecksTo sampleSettings m r ∧ r.WellNumbered sampleSettings.values := by
  obtain ⟨m, r, h⟩ := sample_checksTo
  exact ⟨m, r, h, h.wellNumbered⟩

theorem callsDescend_sample :
    ∃ m r, ChecksTo sampleSettings m r ∧ r.CallsDescend sampleSettings.values := by
  obtain ⟨m, r, h⟩ := sample_checksTo
  exact ⟨m, r, h, h.callsDescend⟩

end Module

end Shading
