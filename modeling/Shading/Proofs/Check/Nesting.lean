import Mathlib.Data.List.Induction
import Shading.Check.Statement
import Shading.Proofs.Check.Declaration
import Shading.Proofs.Check.Lowering
import Shading.Proofs.Check.Signature

/-! Checked statements: imports, which bring declarations of modules that are done into scope, and statements inside
other ones. -/
namespace Shading

/-- Each module brings something under its name. -/
theorem Module.map_fst_brought (given : OptionValues) (ms : List (Text × Module)) :
    (brought given ms).map (·.1) = ms.map (·.1) := by
  induction ms using List.reverseRecOn with
  | nil => rfl
  | append_singleton ms m ih =>
    rw [brought_concat, List.map_append, List.map_append, ih, List.map_singleton, List.map_singleton]

/-- The import of a module brings what can be referred to at its end. -/
theorem Surroundings.imports_among {given : OptionValues} {before after : List (Text × Module)} {m : Text × Module}
    (h : ∀ x ∈ before, x.1 ≠ m.1) :
    (among given (before ++ m :: after)).imports m.1 = some (m.2.rootStmt.declares (among given before)) := by
  have hnone : (Module.brought given before).lookup m.1 = none := by
    rw [List.lookup_eq_none_iff]
    intro x hx
    have hname : x.1 ∈ before.map (·.1) := by
      rw [← Module.map_fst_brought given before]
      exact List.mem_map_of_mem hx
    obtain ⟨y, hy, hxy⟩ := List.mem_map.mp hname
    rw [bne_iff_ne, ← hxy]
    exact (h y hy).symm
  rw [← List.singleton_append, ← List.append_assoc]
  refine among_append after ?_
  simp only [among, Module.brought_concat, List.lookup_append, hnone, List.lookup_cons, beq_self_eq_true]
  rfl

namespace Check

variable {site : Site} {σ σ' : State}

/-- A module that is done is found by its name among what can be imported. -/
theorem Covers.found {env : Surroundings} {s : Session} (h : Covers env site s) {name : Text} {m : Exported}
    (hm : s.finished.lookup name = some m) :
    ∃ before after, s.finished = before ++ (name, m) :: after ∧
      env.imports name = some (m.result.rootStmt.declares (.among site.settings.values (modules before))) := by
  obtain ⟨before, after, hfinished, hbefore⟩ := List.lookup_eq_some_iff.mp hm
  refine ⟨before, after, hfinished, h.2 ?_⟩
  rw [hfinished, modules, List.map_append, List.map_cons]
  refine Surroundings.imports_among (m := (name, m.result)) fun x hx => ?_
  obtain ⟨y, hy, rfl⟩ := List.mem_map.mp hx
  have hne := hbefore y hy
  simp only [bne_iff_ne, ne_eq] at hne
  exact fun heq => hne heq.symm

/-- What is asked of a loader: the module that it gives is done, and those that it has checked are so, too. -/
structure Loads (load : Loader) : Prop where
  run : ∀ {name span site σ r σ'}, load name span site σ = .ok (r, σ') → Ready site σ →
    ∃ fs m, r = some m ∧ σ'.draft = σ.draft ∧ Advances site σ σ' [] fs [] ∧
      σ'.session.finished.lookup name = some m ∧
      ((∀ name v, site.settings.values.get? name = some v → v.HasType v.type) → σ.session.Room (moduleKeys fs) →
        σ.session.Sound site.settings.values →
        σ'.session.Sound site.settings.values ∧ σ.session.Extends σ'.session)

/-- The check of an imported module as a step of the module that imports it. -/
theorem Step.loaded {load : Loader} (hload : Loads load) {name : Text} {span : Span} {r : Option Exported}
    (h : load name span site σ = .ok (r, σ')) (hready : Ready site σ) :
    ∃ m, r = some m ∧ σ'.session.finished.lookup name = some m ∧
      Step (fun _ _ => True) site σ σ' [] [] (fun _ => []) fun _ _ => True := by
  obtain ⟨fs, m, hm, hdraft, hadvances, hfound, hsound⟩ := hload.run h hready
  refine ⟨m, hm, hfound, fs, hadvances, fun env p _ hroom hstands _ => ?_⟩
  obtain ⟨hsound', hext⟩ := hsound hstands.formed hroom hstands.sound
  refine ⟨trivial, fun _ _ => trivial, ?_, hext⟩
  refine hstands.extend [] hext hsound' ?_ ?_ ?_ (fun d hd => (by cases hd)) fun f _ g hg => (by cases hg)
  · rw [hdraft]
    exact hstands.sees.wildcard
  · rw [hdraft]
    exact fun level hlevel x hx => .inl ⟨level, hlevel, hx⟩
  · rw [hdraft]
    exact fun x hx => .inl hx

/-- Names that are bound to what has been declared elsewhere. -/
theorem Step.bound {P : Claim} {D : Surroundings → List Referent} {B : Binding → Prop}
    (hsession : σ'.session = σ.session) (hdraft : Binds site σ.draft σ'.draft B)
    (h : ∀ env p, Covers env site σ.session → Stands site p σ →
      (∀ b, B b → Leads σ.session (D env ++ p.context) b) ∧ (∀ d ∈ D env, d.Proper ∧ σ.session.Records d) ∧
        ∀ f ∈ site.function, ∀ g, .function g ∈ D env → g.id ≤ f.id) :
    Step P site σ σ' [] [] D P := by
  refine ⟨[], ?_, fun env p hcovers hroom hstands hp => ?_⟩
  · refine ⟨?_, hdraft.outer, hdraft.published, ?_, ?_, ?_, fun f hf => (by cases hf), ?_, ?_⟩
    · rw [hdraft.pending, List.append_nil]
    · rw [hsession, List.append_nil]
    · rw [hsession]
      exact .refl _
    all_goals rw [hsession]
  · rw [hsession] at hcovers
    obtain ⟨hleads, hds, horder⟩ := h env p hcovers hstands
    have hext : σ.session.Extends σ'.session := by
      rw [hsession]
      exact .refl _
    refine ⟨trivial, hp, hstands.bound hdraft hext ?_ ?_ ?_ horder, hext⟩
    · rw [hsession]
      exact hstands.sound
    · rw [hsession]
      exact hleads
    · rw [hsession]
      exact hds

theorem declareAll_ok {B : Binding → Prop} {xs : List (Text × Binding)} {f : Text × Binding → Text} {span : Span}
    {u : Unit} (hxs : ∀ x ∈ xs, B x.2) (h : (xs.forM fun x => declare (f x) span x.2) site σ = .ok (u, σ')) :
    ∃ d, σ' = { σ with draft := d } ∧ Binds site σ.draft d B := by
  induction xs generalizing σ with
  | nil =>
    obtain ⟨-, rfl⟩ := pure_ok.mp h
    exact ⟨_, rfl, .refl _ _ _⟩
  | cons x xs ih =>
    rw [List.forall_mem_cons] at hxs
    obtain ⟨v, σ₁, hdeclare, hrest⟩ := bind_ok.mp h
    obtain ⟨d, rfl, hbinds⟩ := declare_ok hdeclare
    obtain ⟨d', rfl, hbinds'⟩ := ih hxs.2 hrest
    exact ⟨d', rfl, (hbinds.of_eq hxs.1).trans hbinds'⟩

theorem declareItems_ok {B : Binding → Prop} {moduleName : Text} {symbols : List (Text × Binding)}
    {items : List ImportItem} {u : Unit} (hsymbols : ∀ x ∈ symbols, B x.2)
    (h : declareItems moduleName symbols items site σ = .ok (u, σ')) :
    ∃ d, σ' = { σ with draft := d } ∧ Binds site σ.draft d B := by
  induction items generalizing σ with
  | nil =>
    obtain ⟨-, rfl⟩ := pure_ok.mp h
    exact ⟨_, rfl, .refl _ _ _⟩
  | cons item items ih =>
    simp only [declareItems, reject_bind] at h
    split at h
    · exact (reject_ok.mp h).elim
    · obtain ⟨v, σ₁, hdeclare, hrest⟩ := bind_ok.mp h
      obtain ⟨d, rfl, hbinds⟩ := declareAll_ok (fun x hx => hsymbols x (List.mem_filter.mp hx).1) hdeclare
      obtain ⟨d', rfl, hbinds'⟩ := ih hrest
      exact ⟨d', rfl, hbinds.trans hbinds'⟩

/-- The names that an import binds lead to what the imported module declares. -/
theorem importSymbols_ok {load : Loader} (hload : Loads load) {span : Span} {name : Text} {items : List ImportItem}
    {u : Unit} (h : importSymbols load span name items site σ = .ok (u, σ')) (hready : Ready site σ) :
    Step (fun _ _ => True) site σ σ' [] [] (fun env => (env.imports name).getD []) fun _ _ => True := by
  obtain ⟨v, σ₁, hscope, hrest⟩ := bind_ok.mp h
  obtain ⟨hnone, rfl⟩ := requireModuleScope_ok hscope
  obtain ⟨r, σ₂, hrun, hrest⟩ := bind_ok.mp hrest
  obtain ⟨m, rfl, hfound, hstep⟩ := Step.loaded hload hrun hready
  obtain ⟨w, σ₃, himports, hrest⟩ := bind_ok.mp hrest
  have hσ₃ := modifyDraft_ok.mp himports
  have hbinds : ∃ d, σ' = { σ₂ with draft := d } ∧ Binds site σ₂.draft d fun b => ∃ x ∈ m.symbols, x.2 = b := by
    have hnote : Binds site σ₂.draft σ₃.draft fun b => ∃ x ∈ m.symbols, x.2 = b := by
      rw [hσ₃]
      dsimp only
      split
      · exact .refl _ _ _
      · exact ⟨rfl, rfl, rfl, fun level hlevel x hx => .inl ⟨level, hlevel, hx⟩, fun x hx => .inl hx, fun _ => rfl⟩
    have hlast : ∃ d, σ' = { σ₃ with draft := d } ∧ Binds site σ₃.draft d fun b => ∃ x ∈ m.symbols, x.2 = b := by
      split at hrest
      · exact declareAll_ok (f := fun x => x.1) (fun x hx => ⟨x, List.mem_mergeSort.mp hx, rfl⟩) hrest
      · exact declareItems_ok (fun x hx => ⟨x, hx, rfl⟩) hrest
    obtain ⟨d, hd, hbinds⟩ := hlast
    refine ⟨d, ?_, hnote.trans hbinds⟩
    rw [hd, hσ₃]
  obtain ⟨d, hσ', hbinds⟩ := hbinds
  have hbound {P : Claim} : Step P site σ₂ σ' [] [] (fun env => (env.imports name).getD []) P := by
    have hsession : σ'.session = σ₂.session := by rw [hσ']
    have hdraft : Binds site σ₂.draft σ'.draft fun b => ∃ x ∈ m.symbols, x.2 = b := by rwa [hσ']
    refine Step.bound hsession hdraft fun env p hcovers hstands => ?_
    obtain ⟨before, after, hfinished, himport⟩ := hcovers.found hfound
    have hdone := hstands.sound.finished before _ after hfinished
    rw [himport, Option.getD_some]
    refine ⟨?_, fun d hd => ⟨hdone.proper d hd, hdone.recorded d hd⟩, ?_⟩
    · rintro b ⟨x, hx, rfl⟩
      exact (hdone.symbols x hx).mono (.refl _) (List.subset_append_left _ _)
    · intro f hf
      rw [hnone] at hf
      cases hf
  exact (hstep.trans hbound).post fun _ _ _ => trivial

end Check

end Shading

namespace Shading.Check

open Stmt (Everywhere EverywhereAll declaresAll)

variable {site : Site} {σ σ' : State}

/-- A check of a statement. Its result, if there is one, keeps to the rules, and so do the statements that are
put before it. -/
structure Checks (act : Check (Option Stmt)) : Prop where
  run : ∀ {site σ r σ'}, act site σ = .ok (r, σ') → Ready site σ →
    ∃ qs, Step (fun _ _ => True) site σ σ' qs (r.toList.flatMap Stmt.keys) (fun env => declaresAll env r.toList)
      (fun env p => EverywhereAll env Node.Valid p r.toList) ∧ (site.function = none → qs = [])

/-- A check of statements one after the other. -/
structure ChecksAll (act : Check (List Stmt)) : Prop where
  run : ∀ {site σ ss σ'}, act site σ = .ok (ss, σ') → Ready site σ →
    Step (fun _ _ => True) site σ σ' [] (ss.flatMap Stmt.keys) (fun env => declaresAll env ss)
      fun env p => EverywhereAll env Node.Valid p ss

theorem Ready.move {site' : Site} (h : Ready site σ) (hsettings : site'.settings = site.settings) : Ready site' σ := by
  refine ⟨?_, ?_, h.previous, h.missing⟩
  · rw [hsettings]
    exact h.strict
  · rw [hsettings]
    exact h.written

/-- A step that is about one statement. -/
theorem Step.one {P : Claim} {qs : List Stmt} {ks : List Key} {D : Surroundings → List Referent} {s : Stmt}
    (h : Step P site σ σ' qs ks D fun env p => Everywhere env Node.Valid p s) (hks : ks.Perm s.keys)
    (hD : ∀ env, D env = s.declares env) :
    Step P site σ σ' qs ([s].flatMap Stmt.keys) (fun env => declaresAll env [s])
      fun env p => EverywhereAll env Node.Valid p [s] := by
  have hkeys : ks.Perm ([s].flatMap Stmt.keys) := by rwa [List.flatMap_singleton]
  have hdeclares : D = fun env => declaresAll env [s] := funext hD
  rw [← hdeclares]
  exact (h.perm hkeys).post fun _ _ hs => ⟨hs, trivial⟩

/-- The check of a declaration. -/
theorem Checks.of_makes {α : Type} {x : Check α} {f : α → Stmt} {ks : α → List Key}
    {D : Surroundings → α → List Referent} {Q : Surroundings → Place → α → Prop}
    (hx : Makes (fun _ _ => True) x ks D Q) (hks : ∀ a, (f a).keys = ks a) (hD : ∀ env a, (f a).declares env = D env a)
    (hQ : ∀ env p a, Q env p a → Everywhere env Node.Valid p (f a)) : Checks (do return some (f (← x))) := by
  refine ⟨fun {site σ r σ'} h _ => ?_⟩
  obtain ⟨a, σ₁, hrun, hpure⟩ := bind_ok.mp h
  obtain ⟨rfl, rfl⟩ := pure_ok.mp hpure
  obtain ⟨qs, hstep, hnone⟩ := hx.run hrun
  refine ⟨qs, (hstep.post fun env p => hQ env p a).one ?_ fun env => (hD env a).symm, hnone⟩
  rw [hks]

/-- The check of a statement that declares nothing and holds no other ones. -/
theorem Checks.of_delivers {α : Type} {x : Check α} {f : α → Stmt} {Q : Place → α → Prop}
    (hx : Delivers (fun _ => True) x Q) (hks : ∀ a, (f a).keys = []) (hD : ∀ env a, (f a).declares env = [])
    (hQ : ∀ env p a, Q p a → Everywhere env Node.Valid p (f a)) : Checks (do return some (f (← x))) := by
  refine ⟨fun {site σ r σ'} h _ => ?_⟩
  obtain ⟨a, σ₁, hrun, hpure⟩ := bind_ok.mp h
  obtain ⟨rfl, rfl⟩ := pure_ok.mp hpure
  obtain ⟨qs, hstep, hnone⟩ := Step.of_delivers hx hrun fun _ _ _ => trivial
  refine ⟨qs, (hstep.post fun env p => hQ env p a).one ?_ fun env => (hD env a).symm, hnone⟩
  rw [hks]

theorem requireFunction_ok {span : Span} {f : Function} (h : requireFunction span site σ = .ok (f, σ')) :
    site.function = some f ∧ σ' = σ := by
  obtain ⟨s, σ₁, hs, hrest⟩ := bind_ok.mp h
  obtain ⟨rfl, rfl⟩ := read_ok.mp hs
  cases hf : s.function with
  | none => simp [hf] at hrest
  | some g =>
    simp only [hf, pure_ok] at hrest
    obtain ⟨rfl, rfl⟩ := hrest
    exact ⟨rfl, rfl⟩

/-- Inside functions only. -/
theorem Checks.inFunction {span : Span} {act : Function → Check (Option Stmt)}
    (hact : ∀ {site σ r σ'} {f : Function}, act f site σ = .ok (r, σ') → Ready site σ → site.function = some f →
      ∃ qs, Step (fun _ _ => True) site σ σ' qs (r.toList.flatMap Stmt.keys) (fun env => declaresAll env r.toList)
        fun env p => EverywhereAll env Node.Valid p r.toList) :
    Checks (requireFunction span >>= act) := by
  refine ⟨fun {site σ r σ'} h hready => ?_⟩
  obtain ⟨f, σ₁, hf, hrest⟩ := bind_ok.mp h
  obtain ⟨hfunction, rfl⟩ := requireFunction_ok hf
  obtain ⟨qs, hstep⟩ := hact hrest hready hfunction
  refine ⟨qs, hstep, fun hnone => ?_⟩
  rw [hnone] at hfunction
  cases hfunction

theorem Checks.guarded {span : Span} {act : Function → Check (Option Stmt)} (hact : ∀ f, Checks (act f)) :
    Checks (requireFunction span >>= act) := by
  refine .inFunction fun {site σ r σ' f} h hready _ => ?_
  obtain ⟨qs, hstep, -⟩ := (hact f).run h hready
  exact ⟨qs, hstep⟩

section

variable {act : Check (Option Stmt)} {span : Span} {out : Stmt}

theorem keys_getD (r : Option Stmt) (span : Span) : (r.getD (.noOp span)).keys = r.toList.flatMap Stmt.keys := by
  cases r with
  | none => rfl
  | some s => exact (List.flatMap_singleton _ _).symm

theorem declares_getD (env : Surroundings) (r : Option Stmt) (span : Span) :
    (r.getD (.noOp span)).declares env = declaresAll env r.toList := by
  cases r <;> rfl

theorem everywhere_getD {env : Surroundings} {p : Place} {r : Option Stmt} (span : Span)
    (h : EverywhereAll env Node.Valid p r.toList) : Everywhere env Node.Valid p (r.getD (.noOp span)) := by
  cases r with
  | none => exact ⟨trivial, fun e he => (by cases he)⟩
  | some s => exact h.1

/-- What has to stand before a statement inside another one is put in a scope together with it. -/
theorem nested_ok (hact : Checks act) (h : nested span act site σ = .ok (out, σ')) (hready : Ready site σ) :
    ∃ D, (∀ env, out.declares env ⊆ D env) ∧
      Step (fun _ _ => True) site σ σ' [] out.keys D fun env p => Everywhere env Node.Valid p out := by
  obtain ⟨⟨pending, r⟩, σ₁, hcollect, hpure⟩ := bind_ok.mp h
  obtain ⟨rfl, rfl⟩ := pure_ok.mp hpure
  obtain ⟨σ₂, hrun, hpending, rfl⟩ := collecting_ok hcollect
  obtain ⟨qs, hstep, -⟩ := hact.run hrun ⟨hready.strict, hready.written, hready.previous, hready.missing⟩
  obtain ⟨hqs, hstep'⟩ := hstep.collected
  obtain rfl : qs = pending := hqs.symm.trans hpending.symm
  refine ⟨fun env => declaresAll env r.toList ++ declaresAll env qs, fun env => ?_, ?_⟩
  · split
    · rw [declares_getD]
      exact List.subset_append_left _ _
    · exact List.nil_subset _
  · have hkeys : (qs.flatMap Stmt.keys ++ r.toList.flatMap Stmt.keys) =
        (if qs.isEmpty then r.getD (.noOp span) else .block span (qs ++ [r.getD (.noOp span)])).keys := by
      split
      · rename_i hempty
        rw [List.isEmpty_iff.mp hempty, keys_getD]
        rfl
      · rw [Stmt.keys_block, List.flatMap_append, List.flatMap_singleton, keys_getD]
    rw [← hkeys]
    refine hstep'.post fun env p ⟨hvalid, hr⟩ => ?_
    split
    · rename_i hempty
      rw [List.isEmpty_iff.mp hempty] at hr
      exact everywhere_getD span hr
    · exact Stmt.everywhere_block ((Stmt.everywhereAll_append _ _).mpr ⟨hvalid, everywhere_getD span hr, trivial⟩)

theorem nestedScoped_ok (hact : Checks act) (h : nestedScoped span act site σ = .ok (out, σ')) (hready : Ready site σ)
    (hfunction : site.function.isSome) (D : Surroundings → List Referent) (hD : ∀ env, D env ⊆ out.declares env) :
    Step (fun _ _ => True) site σ σ' [] out.keys D fun env p => Everywhere env Node.Valid p out := by
  obtain ⟨σ₁, hrun, rfl⟩ := inScope_ok h
  obtain ⟨E, hE, hstep⟩ := nested_ok hact hrun ⟨hready.strict, hready.written, hready.previous, hready.missing⟩
  exact hstep.leave hfunction D fun env => List.Subset.trans (hD env) (hE env)

end

end Shading.Check

namespace Shading.Check

open Stmt (Everywhere EverywhereAll declaresAll)

variable {site : Site} {σ σ' : State}

/-- The body of a function is checked in a scope of its own, where the function itself can be referred to. -/
theorem Step.defines {P Q R : Claim} {f : Function} {σ₁ σ₂ : State} {ks : List Key} {D : Surroundings → List Referent}
    (hnone : site.function = none)
    (h : Step (fun _ _ => True) site σ σ₁ [] [(.function, f.id)] (fun _ => [.function f]) Q)
    (h' : Step P { site with function := some f } σ₁.enter σ₂ [] ks D R)
    (hP : ∀ env c, Q env ⟨c, none⟩ → P env ⟨c, some f⟩) :
    Step (fun _ _ => True) site σ σ₂.leave [] ((.function, f.id) :: ks) (fun _ => [.function f])
      fun env p => Q env p ∧ R env ⟨.function f :: p.context, some f⟩ := by
  obtain ⟨fs, hadvances, hpost⟩ := h.out
  obtain ⟨gs, hadvances', hpost'⟩ := h'.out
  have hleave : Advances site σ₁ σ₂.leave [] gs ks := by
    refine { hadvances' with outer := ?_, exports := fun hsome => ?_ }
    · show σ₂.draft.scopes.levels.tail.tail = _
      rw [hadvances'.outer]
      rfl
    · rw [hnone] at hsome
      cases hsome
  refine ⟨fs ++ gs, hadvances.trans hleave, fun env p hcovers hroom hstands _ => ?_⟩
  have hroom' := Advances.room hroom (List.Perm.refl ([(Space.function, f.id)] ++ ks))
  obtain ⟨-, hQ, hstands₁, hext⟩ :=
    hpost env p (hcovers.before hleave.finished) hroom'.left hstands fun _ _ => trivial
  have hnone' : p.function = none := hstands.sees.function.trans hnone
  have hinside : Stands { site with function := some f } ⟨.function f :: p.context, some f⟩ σ₁.enter := by
    refine ⟨⟨hstands₁.sees.strict, rfl, hstands₁.sees.wildcard, hstands₁.enter.sees.scopes, hstands₁.sees.proper,
      hstands₁.sees.recorded, ?_, ?_⟩, hstands₁.exports, hstands₁.sound, hstands₁.formed⟩
    · intro g hg
      cases hg
      exact List.mem_cons_self
    · intro g hg x hx
      cases hg
      rcases List.mem_cons.mp hx with hx | hx
      · cases hx
        exact Int.le_refl _
      · -- functions that were declared before have smaller numbers
        have hlt := hstands.sound.functions _ (mem_of_lookup (hstands.sees.recorded _ hx))
        have hle := (hroom'.left.bounds hadvances.numbered (List.mem_cons_self)).1
        exact Int.le_of_lt (Int.lt_of_lt_of_le hlt hle)
  have hP' : Lasts (P env) ⟨.function f :: p.context, some f⟩ := by
    intro q hq
    have hq' : p.Within ⟨q.context, none⟩ := ⟨List.Subset.trans (List.subset_cons_self _ _) hq.context, hnone'⟩
    obtain ⟨c, g⟩ := q
    obtain rfl : some f = g := hq.function
    exact hP env c (hQ _ hq')
  obtain ⟨-, hR, hstands₂, hext'⟩ := hpost' env _ hcovers (hroom'.right hadvances.numbered) hinside hP'
  refine ⟨trivial, fun q hq => ⟨hQ q hq, hR _ ?_⟩, ?_, hext.trans hext'⟩
  · exact ⟨List.cons_subset_cons _ hq.context, rfl⟩
  · refine hstands₁.extend [] hext' hstands₂.sound hstands₂.sees.wildcard ?_ ?_ (fun d hd => (by cases hd))
      fun f _ g hg => (by cases hg)
    · intro level hlevel x hx
      rw [State.leave, Scopes.pop, hadvances'.outer] at hlevel
      exact .inl ⟨level, hlevel, hx⟩
    · intro x hx
      rw [State.leave, hadvances'.exports rfl] at hx
      exact .inl hx

theorem reads_checkLocation (stage : Stage) (output : Bool) (m : StructMember) (location : UInt32)
    (taken : List (UInt32 × Text)) : Reads (checkLocation stage output m location taken) := by
  unfold checkLocation
  simp only [reject_bind]
  split
  · exact .reject _ _
  split
  · exact .reject _ _
  split
  · split
    · exact .reject _ _
    · exact .pure _
  · exact .pure _

theorem reads_checkMembers (struct : Text) (stage : Stage) (output : Bool) (ms : List StructMember)
    (taken : List (UInt32 × Text)) : Reads (checkMembers struct stage output ms taken) := by
  induction ms generalizing taken with
  | nil => exact .pure _
  | cons m ms ih =>
    unfold checkMembers
    split
    · simp only [reject_bind]
      split
      · exact .reject _ _
      split
      · exact .reject _ _
      · exact ih taken
    · exact .bind (reads_checkLocation _ _ _ _ _) fun taken' => ih taken'
    · exact .reject _ _

theorem reads_checkInterface (r : Record Ty) (stage : Stage) (output : Bool) (span : Span) :
    Reads (checkInterface r stage output span) := by
  refine .bind .getSession fun s => ?_
  split
  · exact .reject _ _
  · exact reads_checkMembers _ _ _ _ _

theorem reads_checkEntryPoint (span : Span) (h : FnHead) (f : Function) : Reads (checkEntryPoint span h f) := by
  unfold checkEntryPoint
  -- what is done for the result, after the parameters
  extract_lets stage onResult
  have result : ∀ u, Reads (onResult u) := by
    intro u
    simp only [onResult]
    split
    · exact .pure _
    · exact .pure _
    · simp only [reject_bind]
      split
      · exact .reject _ _
      · exact reads_checkInterface _ _ _ _
    · exact .reject _ _
  split
  · exact result ()
  · split
    · exact result ()
    · exact .bind (reads_checkInterface _ _ _ _) fun _ => result ()
    · exact .reject _ _
  · exact .reject _ _

/-- The head of a checked function with numbers for its parameters. -/
theorem Headed.numbered {p : Place} {h : FnHead} {f : Function} {params : List FnParam} (hh : Headed p h f)
    (htypes : params.map (·.type) = h.params.map (·.type)) : f = FnHead.signature { h with params } := by
  have heq : params.map (·.type.type) = h.params.map (·.type.type) := by
    have hmapped := congrArg (List.map Expr.type) htypes
    rwa [List.map_map, List.map_map] at hmapped
  rw [hh.signature]
  simp only [FnHead.signature, heq]
  rfl

theorem Headed.here {p : Place} {h : FnHead} {f : Function} {params : List FnParam} {body : List Stmt} (span : Span)
    (hh : Headed p h f) (hnone : p.function = none) (htypes : params.map (·.type) = h.params.map (·.type)) :
    Stmt.Here Node.Valid p (.function span { h with params } body) := by
  have hparams : ∀ e ∈ params.map (·.type), Annotates p e := by
    rw [htypes]
    intro e he
    obtain ⟨x, hx, rfl⟩ := List.mem_map.mp he
    exact hh.params x hx
  refine ⟨⟨hnone, fun x hx => (hparams _ (List.mem_map_of_mem hx)).checked.2, ?_⟩, fun e he => ?_⟩
  · exact hh.result.imp_right fun h => h.checked.2
  · simp only [Stmt.ownExprs, Stmt.headExprs, List.mem_append, List.mem_cons, List.not_mem_nil, or_false] at he
    rcases he with ((rfl | rfl | rfl | rfl | rfl) | he) | rfl
    · exact valid_of_optional (.inl hh.stage)
    · exact valid_of_optional (.inl hh.earlyTests)
    · exact valid_of_optional (.inl hh.depthWrite)
    · exact valid_of_optional (.inl hh.workgroup)
    · exact valid_of_optional (.inl hh.exported)
    · exact valid_of_optional (.inr (hparams e he).checked.1)
    · exact valid_of_optional (hh.result.imp_right fun h => h.checked.1)

theorem checks_function {act : Check (List Stmt)} {span : Span} {h : FnHead} {body : List Stmt} (hact : ChecksAll act)
    (hh : (Stmt.function span h body).Written) : Checks (do
      let (h, f) ← declareFunction span h
      withReader (fun s => { s with function := some f }) <| inScope do
        let params ← declareParams h.params f.params
        let body ← act
        let h := { h with params }
        if h.isEntry then checkEntryPoint span h f
        return some (.function span h body)) := by
  have hid : h.id = 0 := (hh.self rfl).1 _ List.mem_cons_self
  have hparams : ∀ x ∈ h.params, x.id = 0 :=
    fun x hx => (hh.self rfl).1 _ (List.mem_cons_of_mem _ (List.mem_map_of_mem hx))
  refine ⟨fun {site σ r σ'} hrun hready => ?_⟩
  obtain ⟨⟨head, f⟩, σ₁, hdeclare, hrun⟩ := bind_ok.mp hrun
  obtain ⟨hnone, hnumber, hzero⟩ := declareFunction_ok hparams hdeclare
  have hmakes := makes_declareFunction (P := fun _ _ => True) span h hid fun e he => hh.expr he
  obtain ⟨qs, hstep, hqs⟩ := hmakes.run hdeclare
  rw [hqs hnone, hnumber] at hstep
  obtain ⟨σ₂, hinside, rfl⟩ := inScope_ok (withReader_ok.mp hrun)
  obtain ⟨params, σ₃, hrunParams, hinside⟩ := bind_ok.mp hinside
  obtain ⟨ss, σ₄, hrunBody, hinside⟩ := bind_ok.mp hinside
  have hlast : r = some (.function span { head with params } ss) ∧ σ₂ = σ₄ := by
    split at hinside
    · obtain ⟨u, σ₅, hentry, hpure⟩ := bind_ok.mp hinside
      obtain ⟨rfl, rfl⟩ := pure_ok.mp hpure
      exact ⟨rfl, (reads_checkEntryPoint _ _ _).run hentry⟩
    · exact pure_ok.mp hinside
  obtain ⟨rfl, rfl⟩ := hlast
  have hready' : Ready { site with function := some f } σ₁.enter :=
    ⟨hready.strict, hready.written, (hstep.ready hready).previous, (hstep.ready hready).missing⟩
  have hstepParams := declareParams_ok (P := fun _ _ => f = head.signature ∧ ∀ x ∈ head.params, x.type.type.Proper)
    hzero (fun _ _ hp => ⟨by rw [hp.1]; rfl, hp.2⟩) hrunParams
  have hstepBody := hact.run hrunBody (hstepParams.ready hready')
  have hordered : Step _ _ _ _ [] _ (fun _ => params.map FnParam.declaration) _ := hstepParams.reorder fun _ _ _ =>
    ⟨List.reverse_subset.mpr (List.Subset.refl _), List.subset_reverse.mpr (List.Subset.refl _)⟩
  have hdefined := Step.defines (f := f) hnone hstep (hordered.seq (hstepBody.pre fun _ _ _ => trivial))
    fun env c (hp : _ ∧ Headed _ head f) => ⟨hp.2.signature, fun x hx => (hp.2.params x hx).checked.1.proper⟩
  have hpost : ∀ env p, (p.function = none ∧ Headed p head f) ∧
      ((f = head.signature ∧ ∀ x ∈ head.params, x.type.type.Proper) ∧ params.map (·.type) = head.params.map (·.type)) ∧
        EverywhereAll env Node.Valid (Place.after ⟨.function f :: p.context, some f⟩ (params.map FnParam.declaration)) ss →
      f = FnHead.signature { head with params } ∧
        Everywhere env Node.Valid p (.function span { head with params } ss) := by
    rintro env p ⟨⟨hplace, hhead⟩, ⟨-, htypes⟩, hbody⟩
    have hsignature := hhead.numbered htypes
    refine ⟨hsignature, hhead.here span hplace htypes, ?_⟩
    rw [Place.inside, ← hsignature]
    exact hbody
  refine ⟨[], (((hdefined.post hpost).reorder fun env p hp => ?_).post fun _ _ hp => hp.2).one ?_ fun _ => rfl, fun _ => rfl⟩
  · rw [hp.1]
    exact ⟨List.Subset.refl _, List.Subset.refl _⟩
  · rw [Stmt.keys_eq, Stmt.own, List.map_cons, List.map_map, List.cons_append, ← hnumber]
    exact List.Perm.refl _

end Shading.Check
