import Shading.Proofs.Check.Scopes

/-! How the check of a module goes on: what has been declared so far can be referred to, and what is done
stays as it is. -/
namespace Shading.Check

open Stmt (Everywhere EverywhereAll declares declaresAll)

/-- Modules that are done. -/
def modules (fs : List (Text × Exported)) : List (Text × Module) := fs.map fun f => (f.1, f.2.result)

/-- The numbers of the declarations of modules. -/
def moduleKeys (fs : List (Text × Exported)) : List Key := fs.flatMap fun f => f.2.result.rootStmt.keys

@[simp] theorem modules_append (fs gs : List (Text × Exported)) : modules (fs ++ gs) = modules fs ++ modules gs :=
  List.map_append

@[simp] theorem moduleKeys_append (fs gs : List (Text × Exported)) :
    moduleKeys (fs ++ gs) = moduleKeys fs ++ moduleKeys gs := List.flatMap_append

/-- A module is done: the rules hold in it, and its symbols lead to what can be referred to at its end. -/
structure Session.Completes (s : Session) (given : OptionValues) (before : List (Text × Exported))
    (f : Text × Exported) : Prop where
  valid : Everywhere (.among given (modules before)) Node.Valid {} f.2.result.rootStmt
  symbols : ∀ x ∈ f.2.symbols, Leads s (f.2.result.rootStmt.declares (.among given (modules before))) x.2
  proper : ∀ d ∈ f.2.result.rootStmt.declares (.among given (modules before)), d.Proper
  recorded : ∀ d ∈ f.2.result.rootStmt.declares (.among given (modules before)), s.Records d

/-- The numbers in the tables have been given out, and modules that are done stay so. -/
structure Session.Sound (s : Session) (given : OptionValues) : Prop where
  vars : ∀ x ∈ s.vars, x.1 < s.nextVar
  constants : ∀ x ∈ s.constants, x.1 < s.nextConst
  functions : ∀ x ∈ s.functions, x.1 < s.nextFunc
  structs : ∀ x ∈ s.structs, x.1 < s.nextStruct
  finished : ∀ before f after, s.finished = before ++ f :: after → s.Completes given before f

/-- What holds between two statements of a module. -/
structure Stands (site : Site) (p : Place) (σ : State) : Prop where
  sees : Sees site p σ
  exports : ∀ x ∈ σ.draft.exports, Leads σ.session p.context x.2
  sound : σ.session.Sound site.settings.values
  /-- the values that are given for options are values of their types -/
  formed : ∀ name v, site.settings.values.get? name = some v → v.HasType v.type

/-- Modules are found as they are written, and none is missing. -/
structure Ready (site : Site) (σ : State) : Prop where
  strict : site.settings.lenient = false
  written : ∀ r, site.settings.resolver = some r → ∀ name m, r.find name = .ok (some m) → m.rootStmt.Written
  previous : σ.session.previous = []
  missing : σ.session.missing = []

theorem Session.Completes.mono {s s' : Session} {given : OptionValues} {before : List (Text × Exported)}
    {f : Text × Exported} (hext : s.Extends s') (h : s.Completes given before f) : s'.Completes given before f :=
  ⟨h.valid, fun x hx => (h.symbols x hx).mono hext (List.Subset.refl _), h.proper,
    fun d hd => (h.recorded d hd).mono hext⟩

/-- What is declared after a place can be referred to, if it leads to what is in the tables. -/
theorem Stands.extend {site : Site} {p : Place} {σ σ' : State} (h : Stands site p σ) (ds : List Referent)
    (hext : σ.session.Extends σ'.session) (hsound : σ'.session.Sound site.settings.values)
    (hwildcard : σ'.draft.wildcard = false)
    (hscopes : ∀ level ∈ σ'.draft.scopes.levels, ∀ x ∈ level,
      (∃ level ∈ σ.draft.scopes.levels, x ∈ level) ∨ Leads σ'.session (ds ++ p.context) x.2)
    (hexports : ∀ x ∈ σ'.draft.exports, x ∈ σ.draft.exports ∨ Leads σ'.session (ds ++ p.context) x.2)
    (hds : ∀ d ∈ ds, d.Proper ∧ σ'.session.Records d)
    (horder : ∀ f ∈ site.function, ∀ g, .function g ∈ ds → g.id ≤ f.id) : Stands site (p.after ds) σ' := by
  have hsub : p.context ⊆ ds ++ p.context := List.subset_append_right _ _
  refine ⟨⟨h.sees.strict, h.sees.function, hwildcard, ?_, ?_, ?_, fun f hf => hsub (h.sees.current f hf), ?_⟩, ?_, hsound,
    h.formed⟩
  · intro level hlevel x hx
    rcases hscopes level hlevel x hx with ⟨level', hlevel', hx⟩ | hleads
    · exact (h.sees.scopes level' hlevel' x hx).mono hext hsub
    · exact hleads
  · intro d hd
    rcases List.mem_append.mp hd with hd | hd
    · exact (hds d hd).1
    · exact h.sees.proper d hd
  · intro d hd
    rcases List.mem_append.mp hd with hd | hd
    · exact (hds d hd).2
    · exact (h.sees.recorded d hd).mono hext
  · intro f hf g hg
    rcases List.mem_append.mp hg with hg | hg
    · exact horder f hf g hg
    · exact h.sees.order f hf g hg
  · intro x hx
    rcases hexports x hx with hx | hleads
    · exact (h.exports x hx).mono hext hsub
    · exact hleads

/-- What stands at a site stands at another one in the same function. -/
theorem Stands.move {site site' : Site} {p : Place} {σ : State} (h : Stands site p σ)
    (hsettings : site'.settings = site.settings) (hfunction : site'.function = site.function) : Stands site' p σ :=
  ⟨h.sees.move hsettings hfunction, h.exports, hsettings ▸ h.sound, hsettings ▸ h.formed⟩

/-- What stands in a state stands in another one with the same session, scopes and exports. -/
theorem Stands.agree {site : Site} {p : Place} {σ σ' : State} (h : Stands site p σ) (hsession : σ'.session = σ.session)
    (hscopes : σ'.draft.scopes = σ.draft.scopes) (hexports : σ'.draft.exports = σ.draft.exports)
    (hwildcard : σ'.draft.wildcard = σ.draft.wildcard) : Stands site p σ' := by
  refine h.extend [] ?_ ?_ (hwildcard.trans h.sees.wildcard) ?_ ?_ (fun d hd => (by cases hd))
    fun f _ g hg => (by cases hg)
  · rw [hsession]
    exact .refl _
  · rw [hsession]
    exact h.sound
  · rw [hscopes]
    exact fun level hlevel x hx => .inl ⟨level, hlevel, hx⟩
  · rw [hexports]
    exact fun x hx => .inl hx

/-- What stands where the same can be referred to in another order. -/
theorem Stands.same {site : Site} {p q : Place} {σ : State} (h : Stands site p σ) (hpq : p.Within q) (hqp : q.Within p) :
    Stands site q σ := by
  refine ⟨⟨h.sees.strict, hqp.function.trans h.sees.function, h.sees.wildcard, ?_, ?_, ?_, ?_, ?_⟩, ?_, h.sound,
    h.formed⟩
  · exact fun level hlevel x hx => (h.sees.scopes level hlevel x hx).mono (.refl _) hpq.context
  · exact fun d hd => h.sees.proper d (hqp.context hd)
  · exact fun d hd => h.sees.recorded d (hqp.context hd)
  · exact fun f hf => hpq.context (h.sees.current f hf)
  · exact fun f hf g hg => h.sees.order f hf g (hqp.context hg)
  · exact fun x hx => (h.exports x hx).mono (.refl _) hpq.context

/-- A check has put statements before the one that it is about, and it has checked imported modules. The
numbers that it has given out are these and those of the imported modules. -/
structure Advances (site : Site) (σ σ' : State) (qs : List Stmt) (fs : List (Text × Exported)) (ks : List Key) :
    Prop where
  pending : σ'.draft.pending = σ.draft.pending ++ qs
  outer : σ'.draft.scopes.levels.tail = σ.draft.scopes.levels.tail
  exports : site.function.isSome → σ'.draft.exports = σ.draft.exports
  finished : σ'.session.finished = σ.session.finished ++ fs
  numbered : Numbered σ.session σ'.session (ks ++ moduleKeys fs)
  inProgress : σ'.session.inProgress = σ.session.inProgress
  started : ∀ f ∈ fs, f.1 ∉ σ.session.inProgress
  previous : σ'.session.previous = σ.session.previous
  missing : σ'.session.missing = σ.session.missing

namespace Advances

variable {site : Site} {σ σ₁ σ₂ : State} {qs rs : List Stmt} {fs gs : List (Text × Exported)} {ks ls : List Key}

theorem ready (h : Advances site σ σ₁ qs fs ks) (hready : Ready site σ) : Ready site σ₁ :=
  ⟨hready.strict, hready.written, h.previous.trans hready.previous, h.missing.trans hready.missing⟩

theorem refl (site : Site) (σ : State) : Advances site σ σ [] [] [] :=
  ⟨(List.append_nil _).symm, rfl, fun _ => rfl, (List.append_nil _).symm, .refl _, rfl, fun _ h => (by cases h), rfl, rfl⟩

theorem perm (h : Advances site σ σ₁ qs fs ks) (hperm : ks.Perm ls) : Advances site σ σ₁ qs fs ls :=
  { h with numbered := h.numbered.perm (hperm.append_right _) }

theorem swap_keys (ks as ls bs : List Key) : ((ks ++ as) ++ (ls ++ bs)).Perm ((ks ++ ls) ++ (as ++ bs)) := by
  have hmiddle : (as ++ (ls ++ bs)).Perm (ls ++ (as ++ bs)) := by
    rw [← List.append_assoc, ← List.append_assoc]
    exact List.perm_append_comm.append_right _
  rw [List.append_assoc, List.append_assoc]
  exact hmiddle.append_left _

theorem trans (h : Advances site σ σ₁ qs fs ks) (h' : Advances site σ₁ σ₂ rs gs ls) :
    Advances site σ σ₂ (qs ++ rs) (fs ++ gs) (ks ++ ls) := by
  refine ⟨?_, h'.outer.trans h.outer, fun hf => (h'.exports hf).trans (h.exports hf), ?_, ?_,
    h'.inProgress.trans h.inProgress, ?_, h'.previous.trans h.previous, h'.missing.trans h.missing⟩
  · rw [h'.pending, h.pending, List.append_assoc]
  · rw [h'.finished, h.finished, List.append_assoc]
  · rw [moduleKeys_append]
    exact (h.numbered.trans h'.numbered).perm (swap_keys _ _ _ _)
  · intro f hf
    rcases List.mem_append.mp hf with hf | hf
    · exact h.started f hf
    · rw [← h.inProgress]
      exact h'.started f hf

/-- Room for the numbers of two steps, and of the modules of each. -/
theorem room {s : Session} {as : List Key} (hroom : s.Room (as ++ moduleKeys (fs ++ gs))) (hperm : (ks ++ ls).Perm as) :
    s.Room ((ks ++ moduleKeys fs) ++ (ls ++ moduleKeys gs)) := by
  rw [moduleKeys_append] at hroom
  exact (hroom.perm (hperm.symm.append_right _)).perm (swap_keys _ _ _ _).symm

theorem of_hoists (site : Site) (h : Hoists σ σ₁ qs) : Advances site σ σ₁ qs [] (qs.flatMap Stmt.keys) := by
  obtain ⟨n, hsession⟩ := h.session
  obtain ⟨t, hdraft⟩ := h.draft
  refine ⟨?_, ?_, fun _ => ?_, ?_, ?_, ?_, fun _ h => (by cases h), ?_, ?_⟩
  · rw [hdraft]
  · rw [hdraft]
  · rw [hdraft]
  · rw [hsession]
    exact (List.append_nil _).symm
  · exact h.numbered.perm (by rw [moduleKeys, List.flatMap_nil, List.append_nil])
  · rw [hsession]
  · rw [hsession]
  · rw [hsession]

/-- A check at another site, in the same function. -/
theorem move {site' : Site} (h : Advances site σ σ₁ qs fs ks) (hfunction : site'.function = site.function) :
    Advances site' σ σ₁ qs fs ks :=
  { h with exports := fun hf => h.exports (hfunction ▸ hf) }

end Advances

/-- The modules that are done can be imported. -/
def Covers (env : Surroundings) (site : Site) (s : Session) : Prop :=
  env.given = site.settings.values ∧
    ∀ {name ds}, (Surroundings.among site.settings.values (modules s.finished)).imports name = some ds →
      env.imports name = some ds

theorem Covers.before {env : Surroundings} {site : Site} {s s' : Session} {fs : List (Text × Exported)}
    (h : Covers env site s') (hfinished : s'.finished = s.finished ++ fs) : Covers env site s := by
  refine ⟨h.1, fun {name ds} hname => h.2 ?_⟩
  rw [hfinished, modules_append]
  exact Surroundings.among_append _ hname

theorem Stands.hoisted {site : Site} {p : Place} {σ σ' : State} {qs : List Stmt} {env : Surroundings}
    (h : Stands site p σ) (hh : Hoists σ σ' qs) (hroom : σ.session.Room (qs.flatMap Stmt.keys))
    (hqs : EverywhereAll env Node.Valid p qs) : Stands site (p.after (declaresAll env qs)) σ' := by
  have hext := hh.extends_session
  obtain ⟨n, hsession⟩ := hh.session
  obtain ⟨t, hdraft⟩ := hh.draft
  have hle : σ.session.nextVar ≤ σ'.session.nextVar := hroom.next_le hh.numbered .variable
  refine ⟨h.sees.hoisted hh hqs, ?_, ?_, h.formed⟩
  · intro x hx
    rw [hdraft] at hx
    exact (h.exports x hx).mono hext (List.subset_append_right _ _)
  · rw [hsession] at hle hext ⊢
    refine ⟨fun x hx => ?_, h.sound.constants, h.sound.functions, h.sound.structs, fun before f after hf => ?_⟩
    · exact Int.lt_of_lt_of_le (h.sound.vars x hx) hle
    · exact (h.sound.finished before f after hf).mono hext

/-- What is said of the results of a check at a place. -/
abbrev Claim := Surroundings → Place → Prop

/-- A step of a check: it puts statements before the one that it is about, gives out numbers and makes
declarations. Where the first claim holds, the second one holds after it. -/
structure Step (P : Claim) (site : Site) (σ σ' : State) (qs : List Stmt) (ks : List Key)
    (D : Surroundings → List Referent) (Q : Claim) : Prop where
  out : ∃ fs, Advances site σ σ' qs fs (qs.flatMap Stmt.keys ++ ks) ∧
    ∀ env p, Covers env site σ'.session → σ.session.Room ((qs.flatMap Stmt.keys ++ ks) ++ moduleKeys fs) →
      Stands site p σ → Lasts (P env) p →
      EverywhereAll env Node.Valid p qs ∧ Lasts (Q env) (p.after (declaresAll env qs)) ∧
        Stands site ((p.after (declaresAll env qs)).after (D env)) σ' ∧ σ.session.Extends σ'.session

theorem Place.after_nil (p : Place) : p.after [] = p := rfl

namespace Step

variable {P P' Q Q' R : Claim} {site : Site} {σ σ₁ σ₂ : State} {qs rs : List Stmt} {ks ls : List Key}
  {D E : Surroundings → List Referent}

theorem ready (h : Step P site σ σ₁ qs ks D Q) (hready : Ready site σ) : Ready site σ₁ := by
  obtain ⟨fs, hadvances, -⟩ := h.out
  exact hadvances.ready hready

theorem of_delivers {α : Type} {B : Place → Prop} {x : Check α} {a : α}
    {C : Place → α → Prop} (hx : Delivers B x C) (h : x site σ = .ok (a, σ₁)) (hP : ∀ env p, P env p → B p) :
    ∃ qs, Step P site σ σ₁ qs [] (fun _ => []) (fun _ p => C p a) ∧ (site.function = none → qs = []) := by
  obtain ⟨qs, hqs, hnone, hpost⟩ := hx.run h
  refine ⟨qs, ⟨[], (Advances.of_hoists site hqs).perm (by rw [List.append_nil]), ?_⟩, hnone⟩
  intro env p _ hroom hstands hp
  obtain ⟨hvalid, hC⟩ := hpost env p hstands.sees fun q hq => hP env q (hp q hq)
  refine ⟨hvalid, hC, ?_, hqs.extends_session⟩
  exact hstands.hoisted hqs (hroom.left.left) hvalid

theorem perm (h : Step P site σ σ₁ qs ks D Q) (hperm : ks.Perm ls) : Step P site σ σ₁ qs ls D Q := by
  obtain ⟨fs, hadvances, hpost⟩ := h.out
  refine ⟨fs, hadvances.perm (hperm.append_left _), fun env p hcovers hroom => hpost env p hcovers ?_⟩
  exact hroom.perm ((hperm.symm.append_left _).append_right _)

theorem weaken (h : Step P' site σ σ₁ qs ks D Q) (hP : ∀ env p, P env p → P' env p) (hQ : ∀ env p, Q env p → Q' env p) :
    Step P site σ σ₁ qs ks D Q' := by
  obtain ⟨fs, hadvances, hpost⟩ := h.out
  refine ⟨fs, hadvances, fun env p hcovers hroom hstands hp => ?_⟩
  obtain ⟨hvalid, hlasts, hrest⟩ := hpost env p hcovers hroom hstands fun q hq => hP env q (hp q hq)
  exact ⟨hvalid, fun q hq => hQ env q (hlasts q hq), hrest⟩

theorem pre (h : Step P' site σ σ₁ qs ks D Q) (hP : ∀ env p, P env p → P' env p) : Step P site σ σ₁ qs ks D Q :=
  h.weaken hP fun _ _ h => h

theorem post (h : Step P site σ σ₁ qs ks D Q) (hQ : ∀ env p, Q env p → Q' env p) : Step P site σ σ₁ qs ks D Q' :=
  h.weaken (fun _ _ h => h) hQ

theorem keys_assoc (qs rs : List Stmt) (ks ls : List Key) :
    ((qs.flatMap Stmt.keys ++ ks) ++ (rs.flatMap Stmt.keys ++ ls)).Perm
      ((qs ++ rs).flatMap Stmt.keys ++ (ks ++ ls)) := by
  rw [List.flatMap_append]
  exact Advances.swap_keys _ _ _ _

/-- A step that declares nothing, and then another one. -/
theorem trans (h : Step P site σ σ₁ qs ks (fun _ => []) Q)
    (h' : Step (fun env p => P env p ∧ Q env p) site σ₁ σ₂ rs ls D R) :
    Step P site σ σ₂ (qs ++ rs) (ks ++ ls) D fun env p => Q env p ∧ R env p := by
  obtain ⟨fs, hadvances, hpost⟩ := h.out
  obtain ⟨gs, hadvances', hpost'⟩ := h'.out
  refine ⟨fs ++ gs, (hadvances.trans hadvances').perm (keys_assoc _ _ _ _), fun env p hcovers hroom hstands hp => ?_⟩
  have hroom' := Advances.room hroom (keys_assoc qs rs ks ls)
  obtain ⟨hvalid, hQ, hstands₁, hext⟩ := hpost env p (hcovers.before hadvances'.finished) hroom'.left hstands hp
  have hwithin : p.Within (p.after (declaresAll env qs)) := (Place.Within.refl p).after_right _
  obtain ⟨hvalid', hR, hstands₂, hext'⟩ := hpost' env _ hcovers (hroom'.right hadvances.numbered) hstands₁
    fun q hq => ⟨hp.move hwithin q hq, hQ q hq⟩
  have hafter : (p.after (declaresAll env qs)).after (declaresAll env rs) = p.after (declaresAll env (qs ++ rs)) := by
    rw [Place.after_after, Stmt.declaresAll_append]
  rw [Place.after_nil] at hvalid' hR hstands₂
  rw [hafter] at hR hstands₂
  refine ⟨(Stmt.everywhereAll_append qs rs).mpr ⟨hvalid, hvalid'⟩, fun q hq => ⟨?_, hR q hq⟩, hstands₂,
    hext.trans hext'⟩
  rw [← hafter] at hq
  exact hQ q (((Place.Within.refl _).after_right _).trans hq)

/-- A step, and then another one that puts nothing before its statement. -/
theorem seq (h : Step P site σ σ₁ qs ks D Q)
    (h' : Step (fun env p => P env p ∧ Q env p) site σ₁ σ₂ [] ls E R) :
    Step P site σ σ₂ qs (ks ++ ls) (fun env => E env ++ D env) fun env p => Q env p ∧ R env (p.after (D env)) := by
  obtain ⟨fs, hadvances, hpost⟩ := h.out
  obtain ⟨gs, hadvances', hpost'⟩ := h'.out
  have hkeys : ((qs.flatMap Stmt.keys ++ ks) ++ (List.flatMap Stmt.keys [] ++ ls)).Perm
      (qs.flatMap Stmt.keys ++ (ks ++ ls)) := by rw [List.flatMap_nil, List.nil_append, List.append_assoc]
  have hall := (hadvances.trans hadvances').perm hkeys
  rw [List.append_nil] at hall
  refine ⟨fs ++ gs, hall, fun env p hcovers hroom hstands hp => ?_⟩
  have hroom' := Advances.room hroom hkeys
  obtain ⟨hvalid, hQ, hstands₁, hext⟩ := hpost env p (hcovers.before hadvances'.finished) hroom'.left hstands hp
  have hwithin : p.Within (p.after (declaresAll env qs)) := (Place.Within.refl p).after_right _
  obtain ⟨-, hR, hstands₂, hext'⟩ := hpost' env _ hcovers (hroom'.right hadvances.numbered) hstands₁
    fun q hq => ⟨hp.move (hwithin.after_right _) q hq, hQ q (((Place.Within.refl _).after_right _).trans hq)⟩
  refine ⟨hvalid, fun q hq => ⟨hQ q hq, hR _ (hq.after (List.Subset.refl _))⟩, ?_, hext.trans hext'⟩
  rw [← Place.after_after]
  exact hstands₂

/-- A step at another site, in the same function. -/
theorem move {site' : Site} (h : Step P site σ σ₁ qs ks D Q) (hsettings : site'.settings = site.settings)
    (hfunction : site'.function = site.function) : Step P site' σ σ₁ qs ks D Q := by
  obtain ⟨fs, hadvances, hpost⟩ := h.out
  refine ⟨fs, hadvances.move hfunction, fun env p hcovers hroom hstands hp => ?_⟩
  have hcovers' : Covers env site σ₁.session := by rwa [Covers, hsettings] at hcovers
  obtain ⟨hvalid, hQ, hstands', hext⟩ :=
    hpost env p hcovers' hroom (hstands.move hsettings.symm hfunction.symm) hp
  exact ⟨hvalid, hQ, hstands'.move hsettings hfunction, hext⟩

/-- The order of declarations does not matter. -/
theorem reorder (h : Step P site σ σ₁ qs ks D Q) (hD : ∀ env p, Q env p → D env ⊆ E env ∧ E env ⊆ D env) :
    Step P site σ σ₁ qs ks E Q := by
  obtain ⟨fs, hadvances, hpost⟩ := h.out
  refine ⟨fs, hadvances, fun env p hcovers hroom hstands hp => ?_⟩
  obtain ⟨hvalid, hQ, hstands', hext⟩ := hpost env p hcovers hroom hstands hp
  obtain ⟨hsub, hsup⟩ := hD env _ hQ.here
  exact ⟨hvalid, hQ, hstands'.same ((Place.Within.refl _).after hsub) ((Place.Within.refl _).after hsup), hext⟩

/-- The values of options are those that are given, and each is one of its type. -/
theorem informed (h : Step (fun env p => P env p ∧ env.given = site.settings.values ∧
      ∀ name v, site.settings.values.get? name = some v → v.HasType v.type) site σ σ₁ qs ks D Q) :
    Step P site σ σ₁ qs ks D Q := by
  obtain ⟨fs, hadvances, hpost⟩ := h.out
  refine ⟨fs, hadvances, fun env p hcovers hroom hstands hp => hpost env p hcovers hroom hstands fun q hq => ?_⟩
  exact ⟨hp q hq, hcovers.1, hstands.formed⟩

/-- Nothing is done. -/
theorem refl (h : ∀ env p, P env p → Q env p) : Step P site σ σ [] [] (fun _ => []) Q :=
  ⟨[], .refl _ _, fun env _ _ _ hstands hp => ⟨trivial, fun q hq => h env q (hp q hq), hstands, .refl _⟩⟩

end Step

/-- The state in a new scope. -/
def State.enter (σ : State) : State := { σ with draft := { σ.draft with scopes := σ.draft.scopes.push } }

/-- The state after the innermost scope. -/
def State.leave (σ : State) : State := { σ with draft := { σ.draft with scopes := σ.draft.scopes.pop } }

/-- The state with other statements to put before the one that is being checked. -/
def State.withPending (σ : State) (qs : List Stmt) : State := { σ with draft := { σ.draft with pending := qs } }

section

variable {α : Type} {P Q : Claim} {site : Site} {σ σ₁ σ' : State} {qs : List Stmt} {ks : List Key}
  {D : Surroundings → List Referent} {a : α} {x : Check α}

theorem inScope_ok (h : inScope x site σ = .ok (a, σ')) : ∃ σ₁, x site σ.enter = .ok (a, σ₁) ∧ σ' = σ₁.leave := by
  obtain ⟨u, σ₀, henter, h⟩ := bind_ok.mp h
  rw [modifyDraft_ok.mp henter] at h
  obtain ⟨b, σ₁, hx, h⟩ := bind_ok.mp h
  obtain ⟨v, σ₂, hleave, h⟩ := bind_ok.mp h
  obtain ⟨rfl, rfl⟩ := pure_ok.mp h
  exact ⟨σ₁, hx, modifyDraft_ok.mp hleave⟩

theorem collecting_ok {r : List Stmt × α} (h : collecting x site σ = .ok (r, σ')) :
    ∃ σ₁, x site (σ.withPending []) = .ok (r.2, σ₁) ∧ r.1 = σ₁.draft.pending ∧
      σ' = σ₁.withPending σ.draft.pending := by
  obtain ⟨d, σ₀, hd, h⟩ := bind_ok.mp h
  obtain ⟨rfl, rfl⟩ := getDraft_ok.mp hd
  obtain ⟨u, σ₁, hempty, h⟩ := bind_ok.mp h
  rw [modifyDraft_ok.mp hempty] at h
  obtain ⟨b, σ₂, hx, h⟩ := bind_ok.mp h
  obtain ⟨d', σ₃, hd', h⟩ := bind_ok.mp h
  obtain ⟨rfl, rfl⟩ := getDraft_ok.mp hd'
  obtain ⟨v, σ₄, hrestore, h⟩ := bind_ok.mp h
  obtain ⟨rfl, rfl⟩ := pure_ok.mp h
  exact ⟨σ₃, hx, rfl, modifyDraft_ok.mp hrestore⟩

theorem Stands.enter {p : Place} (h : Stands site p σ) : Stands site p σ.enter := by
  refine h.extend [] (.refl _) h.sound h.sees.wildcard ?_ (fun x hx => .inl hx) (fun d hd => (by cases hd))
    fun f _ g hg => (by cases hg)
  intro level hlevel x hx
  rcases List.mem_cons.mp hlevel with rfl | hlevel
  · cases hx
  · exact .inl ⟨level, hlevel, hx⟩

/-- After a scope, its names are gone. What it has declared may still be referred to by number. -/
theorem Step.leave (h : Step P site σ.enter σ₁ [] ks D Q) (hfunction : site.function.isSome)
    (D' : Surroundings → List Referent) (hsub : ∀ env, D' env ⊆ D env) :
    Step P site σ σ₁.leave [] ks D' Q := by
  obtain ⟨fs, hadvances, hpost⟩ := h.out
  refine ⟨fs, { hadvances with outer := ?_ }, fun env p hcovers hroom hstands hp => ?_⟩
  · show σ₁.draft.scopes.levels.tail.tail = _
    rw [hadvances.outer]
    rfl
  · obtain ⟨hvalid, hQ, hstands₁, hext⟩ := hpost env p hcovers hroom hstands.enter hp
    refine ⟨hvalid, hQ, ?_, hext⟩
    refine hstands.extend _ hext hstands₁.sound hstands₁.sees.wildcard ?_ ?_ ?_ ?_
    · intro level hlevel x hx
      rw [State.leave, Scopes.pop, hadvances.outer] at hlevel
      exact .inl ⟨level, hlevel, hx⟩
    · intro x hx
      rw [State.leave, hadvances.exports hfunction] at hx
      exact .inl hx
    · intro d hd
      have hmem : d ∈ D env ++ p.context := List.mem_append_left _ (hsub env hd)
      exact ⟨hstands₁.sees.proper d hmem, hstands₁.sees.recorded d hmem⟩
    · intro f hf g hg
      exact hstands₁.sees.order f hf g (List.mem_append_left _ (hsub env hg))

/-- The statements that are put before another one stand before it. -/
theorem Step.collected (h : Step P site (σ.withPending []) σ₁ qs ks D Q) :
    σ₁.draft.pending = qs ∧
    Step P site σ (σ₁.withPending σ.draft.pending) [] (qs.flatMap Stmt.keys ++ ks)
      (fun env => D env ++ declaresAll env qs)
      fun env p => EverywhereAll env Node.Valid p qs ∧ Q env (p.after (declaresAll env qs)) := by
  obtain ⟨fs, hadvances, hpost⟩ := h.out
  refine ⟨hadvances.pending, fs, { hadvances with pending := (List.append_nil _).symm }, ?_⟩
  intro env p hcovers hroom hstands hp
  obtain ⟨hvalid, hQ, hstands₁, hext⟩ := hpost env p hcovers hroom (hstands.agree rfl rfl rfl rfl) hp
  refine ⟨trivial, fun q hq => ⟨?_, ?_⟩, ?_, hext⟩
  · exact hvalid.moved hq
  · exact hQ _ (hq.after (List.Subset.refl _))
  · rw [Place.after_after] at hstands₁
    exact hstands₁.agree rfl rfl rfl rfl

end

end Shading.Check
