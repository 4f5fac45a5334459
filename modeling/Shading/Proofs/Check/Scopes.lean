import Mathlib.Algebra.Group.Nat.Defs
import Shading.Proofs.Check.Run
import Shading.Proofs.Expr.Evaluation
import Shading.Proofs.Module.Declarations

/-! The numbers that are given out while modules are checked, and what the names in scope stand for. -/
namespace Shading

/-- How many numbers of a space can be given out before they wrap around. -/
def Serial.limit : Nat := 2 ^ 63

/-- Numbers that are given out one after the other, from a first one up to the next one to be given out.
They may be listed in any order. -/
inductive Serial.Given : Int → List Int → Int → Prop
  | nil {n : Int} : Given n [] n
  | cons {n m : Int} {ids : List Int} (h : Given (Serial.next n) ids m) : Given n (n :: ids) m
  | perm {n m : Int} {ids ids' : List Int} (h : Given n ids m) (hperm : ids.Perm ids') : Given n ids' m

namespace Serial.Given

variable {n m k : Int} {ids ids' : List Int}

theorem append (h : Given n ids m) (h' : Given m ids' k) : Given n (ids ++ ids') k := by
  induction h with
  | nil => exact h'
  | cons _ ih => exact .cons (ih h')
  | perm _ hperm ih => exact .perm (ih h') (hperm.append_right _)

theorem one (n : Int) : Given n [n] (Serial.next n) := .cons .nil

theorem next_of_lt (hn : 1 ≤ n) (hlimit : n + 1 < Serial.limit) : Serial.next n = n + 1 := by
  have hsize : (UInt64.size : Int) = 2 * Serial.limit := rfl
  unfold Serial.next
  rw [Int.bmod_eq_of_le] <;> omega

/-- As long as the numbers do not wrap around, they are those of an interval, each once. -/
theorem bounds (h : Given n ids m) (hn : 1 ≤ n) (hlimit : n + ids.length < Serial.limit) :
    m = n + ids.length ∧ (∀ id ∈ ids, n ≤ id ∧ id < m) ∧ ids.Nodup := by
  induction h with
  | nil => exact ⟨by simp, fun id hid => (by cases hid), List.nodup_nil⟩
  | cons h ih =>
    rename_i n m ids
    rw [List.length_cons] at hlimit
    have hnext := next_of_lt hn (by omega)
    obtain ⟨hm, hids, hnodup⟩ := ih (by omega) (by omega)
    refine ⟨by rw [List.length_cons]; omega, ?_, ?_⟩
    · intro id hid
      rcases List.mem_cons.mp hid with rfl | hid
      · omega
      · have := hids id hid
        omega
    · refine List.nodup_cons.mpr ⟨fun hmem => ?_, hnodup⟩
      have := hids n hmem
      omega
  | perm _ hperm ih =>
    rw [← hperm.length_eq] at hlimit ⊢
    obtain ⟨hm, hids, hnodup⟩ := ih hn hlimit
    exact ⟨hm, fun id hid => hids id (hperm.mem_iff.mpr hid), hperm.nodup_iff.mp hnodup⟩

end Serial.Given

namespace Check

/-- The next number of a space. -/
def Session.next (s : Session) : Space → Int
  | .variable => s.nextVar
  | .constant => s.nextConst
  | .function => s.nextFunc
  | .struct => s.nextStruct
  | .alias => s.nextAlias

/-- The numbers of a space among some. -/
def idsOf (space : Space) (ks : List Key) : List Int := (ks.filter (·.1 = space)).map (·.2)

@[simp] theorem idsOf_nil (space : Space) : idsOf space [] = [] := rfl

@[simp] theorem idsOf_append (space : Space) (ks ls : List Key) :
    idsOf space (ks ++ ls) = idsOf space ks ++ idsOf space ls := by
  simp only [idsOf, List.filter_append, List.map_append]

theorem idsOf_cons_self (space : Space) (id : Int) (ks : List Key) :
    idsOf space ((space, id) :: ks) = id :: idsOf space ks := by
  simp [idsOf]

theorem idsOf_cons_ne {space other : Space} (h : other ≠ space) (id : Int) (ks : List Key) :
    idsOf space ((other, id) :: ks) = idsOf space ks := by
  simp [idsOf, h]

theorem length_idsOf_le (space : Space) (ks : List Key) : (idsOf space ks).length ≤ ks.length := by
  rw [idsOf, List.length_map]
  exact List.length_filter_le _ _

theorem mem_idsOf {space : Space} {id : Int} {ks : List Key} : id ∈ idsOf space ks ↔ (space, id) ∈ ks := by
  simp [idsOf]

/-- Between two sessions, just these numbers have been given out. -/
def Numbered (s s' : Session) (ks : List Key) : Prop :=
  ∀ space, Serial.Given (s.next space) (idsOf space ks) (s'.next space)

namespace Numbered

variable {s s' s'' : Session} {ks ls : List Key}

theorem refl (s : Session) : Numbered s s [] := fun _ => .nil

/-- Only the next numbers of sessions matter. -/
theorem congr {t t' : Session} (h : Numbered s s' ks) (ht : ∀ space, t.next space = s.next space)
    (ht' : ∀ space, t'.next space = s'.next space) : Numbered t t' ks := by
  intro space
  rw [ht, ht']
  exact h space

/-- One number is given out. -/
theorem one {space : Space} (h : s'.next space = Serial.next (s.next space))
    (hother : ∀ other, other ≠ space → s'.next other = s.next other) : Numbered s s' [(space, s.next space)] := by
  intro other
  by_cases heq : other = space
  · rw [heq, h, idsOf_cons_self, idsOf_nil]
    exact .one _
  · rw [hother other heq, idsOf_cons_ne (Ne.symm heq), idsOf_nil]
    exact .nil

theorem trans (h : Numbered s s' ks) (h' : Numbered s' s'' ls) : Numbered s s'' (ks ++ ls) := by
  intro space
  rw [idsOf_append]
  exact (h space).append (h' space)

theorem perm (h : Numbered s s' ks) (hperm : ks.Perm ls) : Numbered s s' ls :=
  fun space => (h space).perm ((hperm.filter _).map _)

end Numbered

/-- There are numbers left for these, and they do not wrap around. -/
def Session.Room (s : Session) (ks : List Key) : Prop :=
  ∀ space, 1 ≤ s.next space ∧ s.next space + (idsOf space ks).length < Serial.limit

namespace Session.Room

variable {s s' : Session} {ks ls : List Key}

theorem left (h : s.Room (ks ++ ls)) : s.Room ks := by
  intro space
  obtain ⟨hpos, hlt⟩ := h space
  rw [idsOf_append, List.length_append] at hlt
  exact ⟨hpos, by omega⟩

theorem right (h : s.Room (ks ++ ls)) (hn : Numbered s s' ks) : s'.Room ls := by
  intro space
  obtain ⟨hpos, hlt⟩ := h space
  rw [idsOf_append, List.length_append] at hlt
  obtain ⟨hnext, -, -⟩ := (hn space).bounds hpos (by omega)
  exact ⟨by omega, by omega⟩

theorem perm (h : s.Room ks) (hperm : ks.Perm ls) : s.Room ls := by
  intro space
  have hlength : (idsOf space ks).length = (idsOf space ls).length := ((hperm.filter _).map _).length_eq
  rw [← hlength]
  exact h space

theorem congr {t : Session} (h : s.Room ks) (ht : ∀ space, t.next space = s.next space) : t.Room ks := by
  intro space
  rw [ht]
  exact h space

theorem next_le (h : s.Room ks) (hn : Numbered s s' ks) (space : Space) : s.next space ≤ s'.next space := by
  obtain ⟨hpos, hlt⟩ := h space
  obtain ⟨hnext, -, -⟩ := (hn space).bounds hpos hlt
  omega

/-- The numbers that are given out are new. -/
theorem bounds (h : s.Room ks) (hn : Numbered s s' ks) {space : Space} {id : Int} (hid : (space, id) ∈ ks) :
    s.next space ≤ id ∧ id < s'.next space := by
  obtain ⟨hpos, hlt⟩ := h space
  obtain ⟨-, hids, -⟩ := (hn space).bounds hpos hlt
  exact hids id (mem_idsOf.mpr hid)

end Session.Room

end Check

end Shading

namespace Shading.Check

/-- Is a declaration in the tables of a session? -/
def Session.Records (s : Session) : Referent → Prop
  | .constant id t v =>
    ∃ c, s.constants.lookup id = some c ∧ c.type = t ∧ c.value = v ∧ ∀ w, c.fallback = some w → w.HasType t
  | .function f => s.functions.lookup f.id = some f
  | .struct r => ∃ ms, s.structs.lookup r.id = some ⟨ms, r⟩
  | .variable .. | .alias _ => True

/-- A proper type. If it is a structure behind any number of arrays, it is a declared one. -/
def Known (Γ : List Referent) (t : Ty) : Prop := t.Proper ∧ ∀ r, t.innermost = .struct r → .struct r ∈ Γ

section

variable (s : Session) (Γ : List Referent)

def LeadsToFunction (id : Int) : Prop := ∃ f, s.functions.lookup id = some f ∧ .function f ∈ Γ ∧ f.id = id

def LeadsToStruct (id : Int) : Prop := ∃ x, s.structs.lookup id = some x ∧ .struct x.record ∈ Γ ∧ x.record.id = id

/-- Does what an alias stands for lead to declarations? -/
def LeadsToTarget : Expr → Prop
  | .function _ id => LeadsToFunction s Γ id
  | .structRef _ id => LeadsToStruct s Γ id
  | .typeRef _ t => Known Γ t
  | .intrinsicRef .. => True
  | _ => False

def LeadsToVariable (id : Int) : Prop := ∃ v, s.vars.lookup id = some v ∧ .variable id v.type ∈ Γ

def LeadsToConstant (id : Int) : Prop := ∃ c, s.constants.lookup id = some c ∧ .constant id c.type c.value ∈ Γ

/-- Does a name that is bound so lead to a declaration? -/
def Leads : Binding → Prop
  | .function id => LeadsToFunction s Γ id
  | .variable id | .external id => LeadsToVariable s Γ id
  | .struct id => LeadsToStruct s Γ id
  | .constant id => LeadsToConstant s Γ id
  | .alias _ target => LeadsToTarget s Γ target
  | .unresolved => False

end

/-- Every name in scope leads to a declaration that can be referred to at the place. -/
structure Sees (site : Site) (p : Place) (σ : State) : Prop where
  strict : site.settings.lenient = false
  function : p.function = site.function
  wildcard : σ.draft.wildcard = false
  scopes : ∀ level ∈ σ.draft.scopes.levels, ∀ x ∈ level, Leads σ.session p.context x.2
  proper : ∀ d ∈ p.context, d.Proper
  recorded : ∀ d ∈ p.context, σ.session.Records d
  /-- the function that is being checked is declared -/
  current : ∀ f ∈ site.function, .function f ∈ p.context
  /-- no function is declared after the one that is being checked -/
  order : ∀ f ∈ site.function, ∀ g, .function g ∈ p.context → g.id ≤ f.id

/-- Everything in the tables of a session is in those of another one. -/
structure Session.Extends (s s' : Session) : Prop where
  vars : ∀ {id v}, s.vars.lookup id = some v → s'.vars.lookup id = some v
  constants : ∀ {id c}, s.constants.lookup id = some c → s'.constants.lookup id = some c
  functions : ∀ {id f}, s.functions.lookup id = some f → s'.functions.lookup id = some f
  structs : ∀ {id x}, s.structs.lookup id = some x → s'.structs.lookup id = some x

theorem Session.Extends.refl (s : Session) : s.Extends s := ⟨id, id, id, id⟩

theorem Session.Extends.trans {s s' s'' : Session} (h : s.Extends s') (h' : s'.Extends s'') : s.Extends s'' :=
  ⟨fun hv => h'.vars (h.vars hv), fun hc => h'.constants (h.constants hc), fun hf => h'.functions (h.functions hf),
    fun hx => h'.structs (h.structs hx)⟩

section

variable {s s' : Session} {Γ Δ : List Referent}

theorem Session.Records.mono (hs : s.Extends s') {d : Referent} (h : s.Records d) : s'.Records d := by
  cases d with
  | constant id t v =>
    obtain ⟨c, hc, hrest⟩ := h
    exact ⟨c, hs.constants hc, hrest⟩
  | function f => exact hs.functions h
  | struct r =>
    obtain ⟨ms, hms⟩ := h
    exact ⟨ms, hs.structs hms⟩
  | «variable» | «alias» => trivial

theorem Known.declared {t : Ty} (h : Known Γ t) (r : Record Ty) (hr : t = .struct r) : .struct r ∈ Γ :=
  h.2 r (by rw [hr]; rfl)

theorem Known.mono (hsub : Γ ⊆ Δ) {t : Ty} (h : Known Γ t) : Known Δ t := ⟨h.1, fun r hr => hsub (h.2 r hr)⟩

theorem LeadsToFunction.mono (hs : s.Extends s') (hsub : Γ ⊆ Δ) {id : Int} (h : LeadsToFunction s Γ id) :
    LeadsToFunction s' Δ id := by
  obtain ⟨f, hf, hmem, hid⟩ := h
  exact ⟨f, hs.functions hf, hsub hmem, hid⟩

theorem LeadsToStruct.mono (hs : s.Extends s') (hsub : Γ ⊆ Δ) {id : Int} (h : LeadsToStruct s Γ id) :
    LeadsToStruct s' Δ id := by
  obtain ⟨x, hx, hmem, hid⟩ := h
  exact ⟨x, hs.structs hx, hsub hmem, hid⟩

theorem LeadsToTarget.mono (hs : s.Extends s') (hsub : Γ ⊆ Δ) {e : Expr} (h : LeadsToTarget s Γ e) :
    LeadsToTarget s' Δ e := by
  cases e with
  | function i id => exact LeadsToFunction.mono hs hsub h
  | structRef i id => exact LeadsToStruct.mono hs hsub h
  | typeRef i t => exact Known.mono hsub h
  | _ => exact h

theorem Leads.mono (hs : s.Extends s') (hsub : Γ ⊆ Δ) {b : Binding} (h : Leads s Γ b) : Leads s' Δ b := by
  cases b with
  | function id => exact LeadsToFunction.mono hs hsub h
  | «variable» id | external id =>
    obtain ⟨v, hv, hmem⟩ := h
    exact ⟨v, hs.vars hv, hsub hmem⟩
  | struct id => exact LeadsToStruct.mono hs hsub h
  | constant id =>
    obtain ⟨c, hc, hmem⟩ := h
    exact ⟨c, hs.constants hc, hsub hmem⟩
  | «alias» id target => exact LeadsToTarget.mono hs hsub h
  | unresolved => exact h

end

theorem mem_of_lookup {κ β : Type} [BEq κ] [LawfulBEq κ] {table : List (κ × β)} {k : κ} {b : β}
    (h : table.lookup k = some b) : (k, b) ∈ table := by
  obtain ⟨before, rest, rfl, -⟩ := List.lookup_eq_some_iff.mp h
  exact List.mem_append_right _ List.mem_cons_self

theorem best_cases (a : Option Binding) (b c : Binding)
    (h : (match a with
      | none => some b
      | some a => if b.category.rank < a.category.rank then some b else some a) = some c) : a = some c ∨ c = b := by
  cases a with
  | none =>
    cases h
    exact .inr rfl
  | some a =>
    dsimp only at h
    split at h
    · cases h
      exact .inr rfl
    · exact .inl h

theorem mem_of_best {scope : Scope} {name : Text} {b : Binding} (h : scope.best? name = some b) :
    (name, b) ∈ scope := by
  have hfold (bs : List Binding) (best : Option Binding) :
      bs.foldl (fun best b => match best with
        | none => some b
        | some a => if b.category.rank < a.category.rank then some b else some a) best = some b →
      best = some b ∨ b ∈ bs := by
    induction bs generalizing best with
    | nil => exact .inl
    | cons c bs ih =>
      intro h
      rcases ih _ h with hbest | hmem
      · rcases best_cases best c b hbest with hbest | rfl
        · exact .inl hbest
        · exact .inr List.mem_cons_self
      · exact .inr (List.mem_cons_of_mem _ hmem)
  rcases hfold _ _ h with hnone | hmem
  · cases hnone
  · simp only [List.mem_map, List.mem_filter, beq_iff_eq] at hmem
    obtain ⟨⟨n, b'⟩, ⟨hmem, rfl⟩, rfl⟩ := hmem
    exact hmem

namespace Sees

variable {site : Site} {p : Place} {σ : State}

/-- A site in the same function sees the same. -/
theorem move {site' : Site} (h : Sees site p σ) (hsettings : site'.settings = site.settings)
    (hfunction : site'.function = site.function) : Sees site' p σ := by
  refine ⟨?_, ?_, h.wildcard, h.scopes, h.proper, h.recorded, ?_, ?_⟩
  · rw [hsettings]
    exact h.strict
  · rw [hfunction]
    exact h.function
  · rw [hfunction]
    exact h.current
  · rw [hfunction]
    exact h.order

theorem lookup (h : Sees site p σ) {name : Text} {b : Binding} (hb : σ.draft.scopes.lookup? name = some b) :
    Leads σ.session p.context b := by
  obtain ⟨level, hlevel, hbest⟩ := List.exists_of_findSome?_eq_some hb
  exact h.scopes level hlevel _ (mem_of_best hbest)

/-- The values of constants in the session are those of their declarations. -/
theorem agrees (h : Sees site p σ) : Expr.Agrees p.context σ.session.value? := by
  intro id t v hmem
  obtain ⟨c, hc, -, hv, -⟩ := h.recorded _ hmem
  simp only [Session.value?, Session.constant?, hc]
  exact hv

theorem fits (h : Sees site p σ) : Expr.Fits p.context σ.session.value? := by
  intro id t v w hmem hw
  rw [h.agrees hmem] at hw
  exact (h.proper _ hmem).2 w hw

/-- The defaults of options are of their types as well. -/
theorem fits_default (h : Sees site p σ) : Expr.Fits p.context σ.session.valueOrDefault? := by
  intro id t v w hmem hw
  obtain ⟨c, hc, -, rfl, hfallback⟩ := h.recorded _ hmem
  simp only [Session.valueOrDefault?, Session.constant?, hc, Option.bind_eq_bind, Option.bind_some] at hw
  cases hvalue : c.value with
  | none =>
    rw [hvalue] at hw
    exact hfallback w hw
  | some x =>
    rw [hvalue] at hw
    cases hw
    exact (h.proper _ hmem).2 w hvalue

end Sees

/-- Nothing is changed but that temporary variables are declared. -/
structure Hoists (σ σ' : State) (qs : List Stmt) : Prop where
  session : ∃ n, σ'.session = { σ.session with nextVar := n }
  draft : ∃ n, σ'.draft = { σ.draft with pending := σ.draft.pending ++ qs, temporaries := n }
  numbered : Numbered σ.session σ'.session (qs.flatMap Stmt.keys)
  letVars : ∀ q ∈ qs, ∃ span d, q = .letVar span d

namespace Hoists

variable {σ σ₁ σ₂ : State} {qs rs : List Stmt}

theorem refl (σ : State) : Hoists σ σ [] :=
  ⟨⟨_, rfl⟩, ⟨_, by rw [List.append_nil]⟩, .refl _, fun _ h => (by cases h)⟩

theorem trans (h : Hoists σ σ₁ qs) (h' : Hoists σ₁ σ₂ rs) : Hoists σ σ₂ (qs ++ rs) := by
  obtain ⟨n, hn⟩ := h.session
  obtain ⟨n', hn'⟩ := h'.session
  obtain ⟨t, ht⟩ := h.draft
  obtain ⟨t', ht'⟩ := h'.draft
  refine ⟨⟨n', ?_⟩, ⟨t', ?_⟩, ?_, ?_⟩
  · rw [hn', hn]
  · rw [ht', ht, List.append_assoc]
  · rw [List.flatMap_append]
    exact h.numbered.trans h'.numbered
  · intro q hq
    rcases List.mem_append.mp hq with hq | hq
    · exact h.letVars q hq
    · exact h'.letVars q hq

theorem extends_session (h : Hoists σ σ₁ qs) : σ.session.Extends σ₁.session := by
  obtain ⟨n, hn⟩ := h.session
  rw [hn]
  exact ⟨id, id, id, id⟩

theorem declares_letVars (h : Hoists σ σ₁ qs) (env : Surroundings) {d : Referent}
    (hd : d ∈ Stmt.declaresAll env qs) : ∃ span v, Stmt.letVar span v ∈ qs ∧ d = v.declaration := by
  have hletVars := h.letVars
  clear h
  induction qs with
  | nil => cases hd
  | cons q qs ih =>
    rw [List.forall_mem_cons] at hletVars
    rcases List.mem_append.mp hd with hd | hd
    · obtain ⟨span, v, hmem, rfl⟩ := ih hd hletVars.2
      exact ⟨span, v, List.mem_cons_of_mem _ hmem, rfl⟩
    · obtain ⟨⟨span, v, rfl⟩, -⟩ := hletVars
      exact ⟨span, v, List.mem_cons_self, List.mem_singleton.mp hd⟩

end Hoists

/-- Temporary variables can be referred to after their declarations. -/
theorem Sees.hoisted {site : Site} {p : Place} {σ σ' : State} {qs : List Stmt} {env : Surroundings}
    (h : Sees site p σ) (hh : Hoists σ σ' qs) (hqs : Stmt.EverywhereAll env Node.Valid p qs) :
    Sees site (p.after (Stmt.declaresAll env qs)) σ' := by
  have hext := hh.extends_session
  obtain ⟨n, hdraft⟩ := hh.draft
  have hsub : p.context ⊆ (p.after (Stmt.declaresAll env qs)).context := List.subset_append_right _ _
  have hnew : ∀ d ∈ Stmt.declaresAll env qs, ∃ v : VarDecl, d = v.declaration ∧ d.Proper := by
    intro d hd
    obtain ⟨span, v, hmem, rfl⟩ := hh.declares_letVars env hd
    obtain ⟨q, hv⟩ := hqs.of_mem_all hmem
    exact ⟨v, rfl, Stmt.letVar_proper hv⟩
  refine ⟨h.strict, h.function, ?_, ?_, ?_, ?_, fun f hf => hsub (h.current f hf), ?_⟩
  · rw [hdraft]
    exact h.wildcard
  · intro level hlevel x hx
    rw [hdraft] at hlevel
    exact (h.scopes level hlevel x hx).mono hext hsub
  · intro d hd
    rcases List.mem_append.mp hd with hd | hd
    · obtain ⟨v, -, hproper⟩ := hnew d hd
      exact hproper
    · exact h.proper d hd
  · intro d hd
    rcases List.mem_append.mp hd with hd | hd
    · obtain ⟨v, rfl, -⟩ := hnew d hd
      trivial
    · exact (h.recorded d hd).mono hext
  · intro f hf g hg
    rcases List.mem_append.mp hg with hg | hg
    · obtain ⟨v, hv, -⟩ := hnew _ hg
      cases hv
    · exact h.order f hf g hg

-- What checks of expressions deliver. Such a check declares temporary variables at most, and its result has a property
-- wherever they can be referred to.

open Stmt (EverywhereAll declaresAll)

/-- Does a property hold at a place and wherever more can be referred to? -/
def Lasts (P : Place → Prop) (p : Place) : Prop := ∀ q, p.Within q → P q

theorem Lasts.here {P : Place → Prop} {p : Place} (h : Lasts P p) : P p := h p (.refl p)

theorem Lasts.move {P : Place → Prop} {p q : Place} (h : Lasts P p) (hpq : p.Within q) : Lasts P q :=
  fun r hr => h r (hpq.trans hr)

/-- A property of results that is kept where more can be referred to. -/
def Lasting {α : Type} (Q : Place → α → Prop) : Prop := ∀ {p q : Place} {a : α}, p.Within q → Q p a → Q q a

theorem lasting_checked : Lasting fun p (e : Expr) => e.Checked p := fun hpq h => h.mono hpq

theorem lasting_known_option : Lasting fun p (r : Option Ty) => ∀ t, r = some t → Known p.context t :=
  fun hpq h t ht => (h t ht).mono hpq.context

/-- Where the first property holds, a check that does not refuse gives a result that has the second one.
Outside functions there are no temporary variables. -/
structure Delivers {α : Type} (P : Place → Prop) (x : Check α) (Q : Place → α → Prop) : Prop where
  run : ∀ {site σ a σ'}, x site σ = .ok (a, σ') →
    ∃ qs, Hoists σ σ' qs ∧ (site.function = none → qs = []) ∧ ∀ env p, Sees site p σ → Lasts P p →
      EverywhereAll env Node.Valid p qs ∧ Lasts (Q · a) (p.after (declaresAll env qs))

namespace Delivers

variable {α β : Type} {P P' : Place → Prop} {Q Q' : Place → α → Prop} {R : Place → β → Prop} {x : Check α}

/-- A check that reads only. -/
theorem of_reads (hQ : Lasting Q)
    (h : ∀ {site σ a σ'}, x site σ = .ok (a, σ') → σ' = σ ∧ ∀ p, Sees site p σ → P p → Q p a) : Delivers P x Q := by
  refine ⟨fun {site σ a σ'} hx => ?_⟩
  obtain ⟨rfl, hpost⟩ := h hx
  refine ⟨[], .refl _, fun _ => rfl, fun env p hsees hp => ⟨trivial, fun q hq => ?_⟩⟩
  exact hQ hq (hpost p hsees hp.here)

theorem of_reads_only (h : Reads x) : Delivers P x fun _ _ => True :=
  .of_reads (fun _ h => h) fun hx => ⟨h.run hx, fun _ _ _ => trivial⟩

theorem pure {a : α} (h : ∀ p, P p → Q p a) : Delivers P (Pure.pure a) Q := by
  refine ⟨fun {site σ b σ'} hx => ?_⟩
  obtain ⟨rfl, rfl⟩ := pure_ok.mp hx
  exact ⟨[], .refl _, fun _ => rfl, fun env p _ hp => ⟨trivial, fun q hq => h q (hp q hq)⟩⟩

theorem reject {span : Span} {r : Rejection} : Delivers P (Check.reject span r) Q :=
  ⟨fun hx => (reject_ok.mp hx).elim⟩

theorem bind {f : α → Check β} (hx : Delivers P x Q) (hf : ∀ a, Delivers (fun p => P p ∧ Q p a) (f a) R) :
    Delivers P (x >>= f) R := by
  refine ⟨fun {site σ b σ'} h => ?_⟩
  obtain ⟨a, σ₁, hrun, hrest⟩ := bind_ok.mp h
  obtain ⟨qs, hqs, hnone, hpost⟩ := hx.run hrun
  obtain ⟨rs, hrs, hnone', hpost'⟩ := (hf a).run hrest
  refine ⟨qs ++ rs, hqs.trans hrs, fun h => by rw [hnone h, hnone' h]; rfl, fun env p hsees hp => ?_⟩
  obtain ⟨hvalid, hQ⟩ := hpost env p hsees hp
  have hwithin : p.Within (p.after (declaresAll env qs)) := (Place.Within.refl p).after_right _
  obtain ⟨hvalid', hR⟩ := hpost' env _ (hsees.hoisted hqs hvalid) fun q hq => ⟨hp.move hwithin q hq, hQ q hq⟩
  refine ⟨(Stmt.everywhereAll_append qs rs).mpr ⟨hvalid, hvalid'⟩, ?_⟩
  rw [Stmt.declaresAll_append]
  rwa [Place.after_after] at hR

theorem weaken (hx : Delivers P' x Q) (hP : ∀ p, P p → P' p) (hQ : ∀ p a, Q p a → Q' p a) : Delivers P x Q' := by
  refine ⟨fun {site σ a σ'} h => ?_⟩
  obtain ⟨qs, hqs, hnone, hpost⟩ := hx.run h
  refine ⟨qs, hqs, hnone, fun env p hsees hp => ?_⟩
  obtain ⟨hvalid, hlasts⟩ := hpost env p hsees fun q hq => hP q (hp q hq)
  exact ⟨hvalid, fun q hq => hQ q a (hlasts q hq)⟩

theorem post (hx : Delivers P x Q) (hQ : ∀ p a, Q p a → Q' p a) : Delivers P x Q' := hx.weaken (fun _ h => h) hQ

/-- What holds before a check holds after it. -/
theorem keep (hx : Delivers P x Q) : Delivers P x fun p a => P p ∧ Q p a := by
  refine ⟨fun {site σ a σ'} h => ?_⟩
  obtain ⟨qs, hqs, hnone, hpost⟩ := hx.run h
  refine ⟨qs, hqs, hnone, fun env p hsees hp => ?_⟩
  obtain ⟨hvalid, hlasts⟩ := hpost env p hsees hp
  exact ⟨hvalid, fun q hq => ⟨hp.move ((Place.Within.refl p).after_right _) q hq, hlasts q hq⟩⟩

/-- A check under other circumstances, in the same function. -/
theorem withReader {f : Site → Site} (hx : Delivers P x Q) (hsettings : ∀ s, (f s).settings = s.settings)
    (hfunction : ∀ s, (f s).function = s.function) : Delivers P (MonadWithReaderOf.withReader f x) Q := by
  refine ⟨fun {site σ a σ'} h => ?_⟩
  obtain ⟨qs, hqs, hnone, hpost⟩ := hx.run (withReader_ok.mp h)
  refine ⟨qs, hqs, fun h => hnone ((hfunction site).trans h), fun env p hsees => ?_⟩
  exact hpost env p (hsees.move (hsettings site) (hfunction site))

end Delivers

end Shading.Check
