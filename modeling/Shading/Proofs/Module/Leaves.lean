import Shading.Backend.Specialization
import Shading.Proofs.Token.Lexing

/-! The declarations of a module in their order, under whatever conditions they stand. Those that are there under
the values of the options are some of them. -/
namespace Shading

namespace Stmt

mutual

/-- The declarations of a statement that stands outside functions. Each is marked if it stands under a condition. -/
def leaves (conditional : Bool) : Stmt → List (Bool × Stmt)
  | .multi _ body => leavesAll conditional body
  | .scoped _ body => leaves true body
  | .conditional _ _ body => leaves true body
  | .branch _ _ arms otherwise => leavesArms arms ++ leaves true otherwise
  | .importFrom span name items => [(conditional, .importFrom span name items)]
  | .option span d => [(conditional, .option span d)]
  | .const span d => [(conditional, .const span d)]
  | .alias span d => [(conditional, .alias span d)]
  | .struct span d => [(conditional, .struct span d)]
  | .external span set vars => [(conditional, .external span set vars)]
  | .function span head body => [(conditional, .function span head body)]
  | _ => []

def leavesAll (conditional : Bool) : List Stmt → List (Bool × Stmt)
  | [] => []
  | s :: ss => leaves conditional s ++ leavesAll conditional ss

def leavesArms : List (Expr × Stmt) → List (Bool × Stmt)
  | [] => []
  | (_, s) :: arms => leaves true s ++ leavesArms arms

end

theorem leavesAll_append (conditional : Bool) (ss ts : List Stmt) :
    leavesAll conditional (ss ++ ts) = leavesAll conditional ss ++ leavesAll conditional ts := by
  induction ss with
  | nil => rfl
  | cons s ss ih => rw [List.cons_append, leavesAll, leavesAll, ih, List.append_assoc]

mutual

/-- The marks do not change what the declarations are. -/
theorem leaves_map_snd (c : Bool) (s : Stmt) : (leaves c s).map (·.2) = (leaves false s).map (·.2) := by
  cases s with
  | multi span body => exact leavesAll_map_snd c body
  | _ => rfl

theorem leavesAll_map_snd (c : Bool) (ss : List Stmt) :
    (leavesAll c ss).map (·.2) = (leavesAll false ss).map (·.2) := by
  cases ss with
  | nil => rfl
  | cons s ss => rw [leavesAll, leavesAll, List.map_append, List.map_append, leaves_map_snd c s, leavesAll_map_snd c ss]

end

end Stmt

/-- The declarations of a module, which stand under no condition in the first place. -/
def Module.leaves (m : Module) : List (Bool × Stmt) := m.rootStmt.leaves false

namespace Specialization

open Stmt (leaves leavesAll leavesArms)

/-- What a declaration is for a backend. -/
def declared (own : Bool) : Bool × Stmt → List Declaration
  | (_, .struct _ d) => [.struct d]
  | (conditional, .function span head body) => [.function { span, head, body, own, unconditional := !conditional }]
  | (_, .external _ _ vars) => vars.map .external
  | (_, .option _ d) => [.constant d.id d.name]
  | (_, .const _ d) => [.constant d.id d.name]
  | _ => []

/-- Declarations are those of some leaves, in their order. -/
def Selects (own : Bool) (ls : List (Bool × Stmt)) (ds : List Declaration) : Prop :=
  ∃ ms : List (Bool × Stmt), ms.Sublist ls ∧ ds = ms.flatMap (declared own)

namespace Selects

variable {own : Bool} {ls ls' : List (Bool × Stmt)} {ds ds' : List Declaration}

theorem none : Selects own ls [] := ⟨[], List.nil_sublist _, rfl⟩

theorem single (l : Bool × Stmt) : Selects own [l] (declared own l) := ⟨[l], .refl _, (List.append_nil _).symm⟩

theorem append (h : Selects own ls ds) (h' : Selects own ls' ds') : Selects own (ls ++ ls') (ds ++ ds') := by
  obtain ⟨ms, hms, rfl⟩ := h
  obtain ⟨ns, hns, rfl⟩ := h'
  exact ⟨ms ++ ns, hms.append hns, List.flatMap_append.symm⟩

theorem left (h : Selects own ls ds) : Selects own (ls ++ ls') ds := by
  have happend : Selects own (ls ++ ls') (ds ++ []) := h.append none
  rwa [List.append_nil] at happend

theorem right (h : Selects own ls' ds) : Selects own (ls ++ ls') ds := none.append h

end Selects

variable {c : Constants} {own : Bool}

mutual

/-- What is there under the values of the constants are some of the declarations, in their order. -/
theorem collect_leaves (unconditional : Bool) (s : Stmt) {ds : List Declaration}
    (h : collect c own unconditional s = .ok ds) : Selects own (s.leaves !unconditional) ds := by
  cases s with
  | multi span body => exact collectAll_leaves _ body h
  | «scoped» span body => exact collect_leaves false body h
  | conditional span cond body =>
    obtain ⟨b, -, h⟩ := bind_eq_ok h
    split at h
    · exact collect_leaves false body h
    · cases h
      exact .none
  | branch span isConst arms otherwise =>
    rw [collect] at h
    split at h
    · cases h
    obtain ⟨n, -, h⟩ := bind_eq_ok h
    split at h
    · exact (collectArm_leaves n arms h).left
    · exact .right (collect_leaves false otherwise h)
  | function span head body =>
    cases h
    have hfunction : Selects own _ (declared own (!unconditional, .function span head body)) := .single _
    rwa [declared, Bool.not_not] at hfunction
  | struct | external | option | const =>
    cases h
    exact .single _
  | _ =>
    cases h
    exact .none

theorem collectAll_leaves (unconditional : Bool) (ss : List Stmt) {ds : List Declaration}
    (h : collectAll c own unconditional ss = .ok ds) : Selects own (leavesAll (!unconditional) ss) ds := by
  cases ss with
  | nil =>
    cases h
    exact .none
  | cons s ss =>
    obtain ⟨first, hfirst, h⟩ := bind_eq_ok h
    obtain ⟨rest, hrest, h⟩ := bind_eq_ok h
    cases h
    exact (collect_leaves _ s hfirst).append (collectAll_leaves _ ss hrest)

theorem collectArm_leaves (n : Nat) (arms : List (Expr × Stmt)) {ds : List Declaration}
    (h : collectArm c own n arms = .ok ds) : Selects own (leavesArms arms) ds := by
  match n, arms with
  | 0, [] | n + 1, [] =>
    cases h
    exact .none
  | 0, (e, s) :: arms => exact (collect_leaves false s h).left
  | n + 1, (e, s) :: arms => exact .right (collectArm_leaves n arms h)

end

/-- A specialized module is checked, and its declarations are those of the modules that it imports and its own. -/
theorem ofModule_ok {m : Module} {settings : CheckSettings} {s : Specialization}
    (h : ofModule (some m) settings = .ok s) :
    m.check settings = .ok s.result ∧ ∃ imported own,
      s.result.imported.mapM (fun i => collect s.constants false false i.2.rootStmt) = .ok imported ∧
      collect s.constants true true s.result.rootStmt = .ok own ∧ s.declarations = imported.flatten ++ own := by
  unfold ofModule at h
  dsimp only at h
  split at h
  · cases h
  obtain ⟨u, -, h⟩ := bind_eq_ok h
  obtain ⟨lowered, hlowered, h⟩ := bind_eq_ok h
  obtain ⟨constants, -, h⟩ := bind_eq_ok h
  obtain ⟨imported, himported, h⟩ := bind_eq_ok h
  obtain ⟨own, hown, h⟩ := bind_eq_ok h
  cases h
  cases hcheck : m.check settings with
  | error e =>
    rw [hcheck] at hlowered
    cases hlowered
  | ok r =>
    rw [hcheck] at hlowered
    cases hlowered
    exact ⟨rfl, imported, own, himported, hown, rfl⟩

end Specialization

end Shading
