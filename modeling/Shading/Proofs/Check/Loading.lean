import Shading.Check
import Shading.Proofs.Check.Statement

/-! Checked modules, with those that they import. -/
namespace Shading.Check

open Stmt (Everywhere EverywhereAll declaresAll)

variable {site : Site} {σ σ' : State}

theorem Module.rootStmt_some (m : Module) (b : Block) (h : m.root = some b) : m.rootStmt = .multi b.span b.body := by
  simp [Module.rootStmt, h, Block.toStmt]

/-- The statements of a module as they are written. -/
theorem written_body {m : Module} (h : m.rootStmt.Written) : ∀ s ∈ (m.root.getD {}).body, s.Written := by
  intro s hs
  cases hroot : m.root with
  | none =>
    rw [hroot] at hs
    cases hs
  | some b =>
    rw [hroot] at hs
    rw [Module.rootStmt_some m b hroot] at h
    exact h.child hs

theorem keys_rootStmt (metadata : Option Metadata) (imported : List (Text × Module)) (b : Block) :
    (Module.rootStmt { metadata, imported, root := some b }).keys = b.body.flatMap Stmt.keys := by
  show (Stmt.multi b.span b.body).keys = _
  rw [Stmt.keys_eq]
  rfl

/-- A module that has been checked on its own is done. -/
theorem body_ok {load : Loader} (hload : Loads load) {m r : Module} (hm : m.rootStmt.Written) (hready : Ready site σ)
    (hnone : site.function = none) (hdraft : σ.draft = {}) (h : body load m site σ = .ok (r, σ')) :
    ∃ fs, Advances site σ σ' [] fs r.rootStmt.keys ∧
      ((∀ name v, site.settings.values.get? name = some v → v.HasType v.type) →
        σ.session.Room (r.rootStmt.keys ++ moduleKeys fs) → σ.session.Sound site.settings.values →
        σ'.session.Sound site.settings.values ∧ σ.session.Extends σ'.session ∧
          ∀ name, σ'.session.Completes site.settings.values σ'.session.finished (name, ⟨r, σ'.draft.exports⟩)) := by
  unfold body at h
  simp only [reject_bind] at h
  split at h
  · exact (reject_ok.mp h).elim
  obtain ⟨ss, σ₁, hscope, h⟩ := bind_ok.mp h
  obtain ⟨d, σ₂, hd, hpure⟩ := bind_ok.mp h
  obtain ⟨rfl, rfl⟩ := getDraft_ok.mp hd
  obtain ⟨rfl, rfl⟩ := pure_ok.mp hpure
  obtain ⟨σ₃, hrun, rfl⟩ := inScope_ok hscope
  have hready' : Ready site σ.enter := ⟨hready.strict, hready.written, hready.previous, hready.missing⟩
  have hstep := (checksAll_statements hload _ (written_body hm)).run hrun hready'
  obtain ⟨fs, hadvances, hpost⟩ := hstep.out
  refine ⟨fs, ?_, fun hformed hroom hsound => ?_⟩
  · refine ⟨hadvances.pending, ?_, fun hsome => ?_, hadvances.finished, ?_, hadvances.inProgress, hadvances.started,
      hadvances.previous, hadvances.missing⟩
    · show σ₃.draft.scopes.levels.tail.tail = _
      rw [hadvances.outer]
      rfl
    · rw [hnone] at hsome
      cases hsome
    · exact hadvances.numbered.perm (by rw [keys_rootStmt]; exact List.Perm.refl _)
  · rw [keys_rootStmt] at hroom
    have hstart : Stands site {} σ.enter := by
      refine ⟨⟨hready.strict, hnone.symm, ?_, fun level hlevel x hx => ?_, fun d hd => (by cases hd),
        fun d hd => (by cases hd), fun f hf => ?_, fun f hf g hg => (by cases hg)⟩, fun x hx => ?_, hsound, hformed⟩
      · rw [State.enter, hdraft]
      · rw [State.enter, hdraft] at hlevel
        rw [List.mem_singleton.mp hlevel] at hx
        cases hx
      · rw [hnone] at hf
        cases hf
      · rw [State.enter, hdraft] at hx
        cases hx
    have hcovers : Covers (.among site.settings.values (modules σ₃.session.finished)) site σ₃.session := ⟨rfl, id⟩
    obtain ⟨-, hvalid, hstands, hext⟩ := hpost _ _ hcovers hroom hstart fun _ _ => trivial
    refine ⟨hstands.sound, hext, fun name => ⟨?_, fun x hx => ?_, fun d hd => ?_, fun d hd => ?_⟩⟩
    · exact ⟨⟨trivial, fun e he => (by cases he)⟩, hvalid.here⟩
    · exact (hstands.exports x hx).mono (.refl _) (List.append_subset.mpr ⟨List.Subset.refl _, List.nil_subset _⟩)
    · exact hstands.sees.proper d (List.mem_append_left _ hd)
    · exact hstands.sees.recorded d (List.mem_append_left _ hd)

/-- A module is done after those that it imports. -/
theorem Session.Sound.finish {s s' : Session} {given : OptionValues} {f : Text × Exported} (h : s.Sound given)
    (hf : s.Completes given s.finished f) (hs' : s' = { s with inProgress := s'.inProgress, finished := s.finished ++ [f] }) :
    s'.Sound given := by
  have hext : s.Extends s' := by
    rw [hs']
    exact ⟨id, id, id, id⟩
  have hfinished : s'.finished = s.finished ++ [f] := by rw [hs']
  have htables : s'.Sound given ↔ ∀ before g after, s.finished ++ [f] = before ++ g :: after →
      s'.Completes given before g := by
    rw [← hfinished]
    refine ⟨fun h => h.finished, fun h' => ⟨?_, ?_, ?_, ?_, h'⟩⟩
    all_goals rw [hs']
    · exact h.vars
    · exact h.constants
    · exact h.functions
    · exact h.structs
  refine htables.mpr fun before g after heq => ?_
  rcases List.eq_nil_or_concat after with rfl | ⟨after', g', rfl⟩
  · obtain ⟨rfl, hg⟩ := List.append_inj' heq rfl
    cases hg
    exact hf.mono hext
  · rw [List.concat_eq_append, ← List.cons_append, ← List.append_assoc] at heq
    obtain ⟨hbefore, -⟩ := List.append_inj' heq rfl
    exact (h.finished before g after' hbefore).mono hext

theorem separately_ok {name : Text} {act : Check Module} {e : Exported} (h : separately name act site σ = .ok (e, σ')) :
    ∃ m done, act { settings := site.settings }
        { session := { σ.session with inProgress := name :: σ.session.inProgress } } = .ok (m, done) ∧
      e = ⟨m, done.draft.exports⟩ ∧
      σ' = { σ with session :=
        { done.session with
          inProgress := done.session.inProgress.erase name
          finished := done.session.finished ++ [(name, e)] } } := by
  unfold separately at h
  dsimp only at h
  split at h
  · cases h
  · rename_i m done hrun
    cases h
    exact ⟨m, done, hrun, rfl, rfl⟩

/-- The module that a name stands for is as it is written. -/
theorem find_ok {name : Text} {m : Module} (hready : Ready site σ) (h : find name site σ = .ok (.ok m, σ')) :
    σ' = σ ∧ m.rootStmt.Written := by
  obtain ⟨s, σ₁, hs, hrest⟩ := bind_ok.mp h
  obtain ⟨rfl, rfl⟩ := getSession_ok.mp hs
  rw [hready.previous, List.lookup_nil] at hrest
  obtain ⟨s, σ₂, hs, hfound⟩ := bind_ok.mp hrest
  obtain ⟨rfl, rfl⟩ := read_ok.mp hs
  cases hresolver : s.settings.resolver with
  | none => simp [hresolver, pure_ok] at hfound
  | some r =>
    simp only [hresolver] at hfound
    cases hr : r.find name with
    | error e => simp [hr, pure_ok] at hfound
    | ok x =>
      cases x with
      | none => simp [hr, pure_ok] at hfound
      | some m' =>
        simp only [hr, pure_ok] at hfound
        obtain ⟨hm, rfl⟩ := hfound
        cases hm
        exact ⟨rfl, hready.written r hresolver name m hr⟩

/-- A module that is checked while it is imported. -/
theorem separately_loads {load : Loader} (hload : Loads load) {name : Text} {m : Module} {e : Exported}
    (hm : m.rootStmt.Written) (hready : Ready site σ) (hfresh : σ.session.finished.lookup name = none)
    (hstart : name ∉ σ.session.inProgress) (h : separately name (body load m) site σ = .ok (e, σ')) :
    ∃ fs, σ'.draft = σ.draft ∧ Advances site σ σ' [] fs [] ∧ σ'.session.finished.lookup name = some e ∧
      ((∀ name v, site.settings.values.get? name = some v → v.HasType v.type) → σ.session.Room (moduleKeys fs) →
        σ.session.Sound site.settings.values →
        σ'.session.Sound site.settings.values ∧ σ.session.Extends σ'.session) := by
  obtain ⟨r, done, hrun, rfl, rfl⟩ := separately_ok h
  have hready' : Ready { settings := site.settings }
      { session := { σ.session with inProgress := name :: σ.session.inProgress } } :=
    ⟨hready.strict, hready.written, hready.previous, hready.missing⟩
  obtain ⟨fs, hadvances, hdone⟩ := body_ok hload hm hready' rfl rfl hrun
  have hkeys : (r.rootStmt.keys ++ moduleKeys fs).Perm (moduleKeys (fs ++ [(name, ⟨r, done.draft.exports⟩)])) := by
    rw [moduleKeys_append]
    simp only [moduleKeys, List.flatMap_singleton]
    exact List.perm_append_comm
  have hprogress : done.session.inProgress.erase name = σ.session.inProgress := by
    rw [hadvances.inProgress]
    exact List.erase_cons_head _ _
  refine ⟨fs ++ [(name, ⟨r, done.draft.exports⟩)], rfl, ?_, ?_, fun hformed hroom hsound => ?_⟩
  · refine ⟨(List.append_nil _).symm, rfl, fun _ => rfl, ?_, ?_, hprogress, fun f hf => ?_, hadvances.previous,
      hadvances.missing⟩
    · rw [hadvances.finished, List.append_assoc]
    · exact (hadvances.numbered.perm hkeys).congr (fun _ => rfl) fun _ => rfl
    · rcases List.mem_append.mp hf with hf | hf
      · exact fun hmem => hadvances.started f hf (List.mem_cons_of_mem _ hmem)
      · rw [List.mem_singleton.mp hf]
        exact hstart
  · have hfs : fs.lookup name = none := by
      rw [List.lookup_eq_none_iff]
      intro f hf
      rw [bne_iff_ne]
      exact fun heq => hadvances.started f hf (heq ▸ List.mem_cons_self)
    simp only [hadvances.finished, List.lookup_append, hfresh, hfs, List.lookup_cons, beq_self_eq_true]
    rfl
  · have hext : σ.session.Extends { σ.session with inProgress := name :: σ.session.inProgress } := ⟨id, id, id, id⟩
    have hsound' : ({ σ.session with inProgress := name :: σ.session.inProgress } : Session).Sound site.settings.values :=
      ⟨hsound.vars, hsound.constants, hsound.functions, hsound.structs,
        fun before f after hf => (hsound.finished before f after hf).mono hext⟩
    have hroom' := (hroom.perm hkeys.symm).congr (t := { σ.session with inProgress := name :: σ.session.inProgress })
      fun _ => rfl
    obtain ⟨hsoundDone, hextDone, hcompletes⟩ := hdone hformed hroom' hsound'
    exact ⟨hsoundDone.finish (hcompletes name) rfl, hext.trans (hextDone.trans ⟨id, id, id, id⟩)⟩

theorem loads_loader (depth : Nat) : Loads (loader depth) := by
  induction depth with
  | zero => exact ⟨fun h _ => (reject_ok.mp h).elim⟩
  | succ depth ih =>
    refine ⟨fun {name span site σ r σ'} h hready => ?_⟩
    obtain ⟨s, σ₁, hs, hrest⟩ := bind_ok.mp h
    obtain ⟨rfl, rfl⟩ := getSession_ok.mp hs
    simp only [hready.missing, List.contains_nil, Bool.false_eq_true, if_false] at hrest
    cases hfinished : σ₁.session.finished.lookup name with
    | some m =>
      simp only [hfinished, pure_ok] at hrest
      obtain ⟨rfl, rfl⟩ := hrest
      exact ⟨[], m, rfl, rfl, .refl _ _, hfinished, fun _ _ hsound => ⟨hsound, .refl _⟩⟩
    | none =>
      simp only [hfinished, reject_bind] at hrest
      split at hrest
      · exact (reject_ok.mp hrest).elim
      · rename_i hstart
        obtain ⟨found, σ₂, hfind, hlast⟩ := bind_ok.mp hrest
        cases found with
        | error reason =>
          obtain ⟨s, σ₃, hs, hlast'⟩ := bind_ok.mp hlast
          obtain ⟨rfl, rfl⟩ := read_ok.mp hs
          simp [hready.strict] at hlast'
        | ok m =>
          obtain ⟨rfl, hm⟩ := find_ok hready hfind
          obtain ⟨e, σ₃, hrun, hpure⟩ := bind_ok.mp hlast
          obtain ⟨rfl, rfl⟩ := pure_ok.mp hpure
          have hstart' : name ∉ σ₂.session.inProgress := by simpa using hstart
          obtain ⟨fs, hloaded⟩ := separately_loads ih hm hready hfinished hstart' hrun
          exact ⟨fs, e, rfl, hloaded⟩

end Shading.Check
