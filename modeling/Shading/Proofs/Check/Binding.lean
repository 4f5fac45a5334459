import Shading.Check.Declaration
import Shading.Proofs.Check.Progress

/-! Names that are bound and numbers that are given out when something is declared. -/
namespace Shading.Check

/-- Names have been bound in the innermost scope, or made known to importing modules. -/
structure Binds (site : Site) (d d' : Draft) (B : Binding → Prop) : Prop where
  wildcard : d'.wildcard = d.wildcard
  pending : d'.pending = d.pending
  outer : d'.scopes.levels.tail = d.scopes.levels.tail
  scopes : ∀ level ∈ d'.scopes.levels, ∀ x ∈ level, (∃ level ∈ d.scopes.levels, x ∈ level) ∨ B x.2
  exports : ∀ x ∈ d'.exports, x ∈ d.exports ∨ B x.2
  published : site.function.isSome → d'.exports = d.exports

namespace Binds

variable {site : Site} {d d₁ d₂ : Draft} {B : Binding → Prop} {b : Binding} {σ σ' : State}

theorem trans (h : Binds site d d₁ B) (h' : Binds site d₁ d₂ B) : Binds site d d₂ B := by
  refine ⟨h'.wildcard.trans h.wildcard, h'.pending.trans h.pending, h'.outer.trans h.outer, ?_, ?_,
    fun hf => (h'.published hf).trans (h.published hf)⟩
  · intro level hlevel x hx
    rcases h'.scopes level hlevel x hx with ⟨level₁, hlevel₁, hx⟩ | hx
    · exact h.scopes level₁ hlevel₁ x hx
    · exact .inr hx
  · intro x hx
    rcases h'.exports x hx with hx | hx
    · exact h.exports x hx
    · exact .inr hx

theorem of_eq (h : Binds site d d₁ (· = b)) (hb : B b) : Binds site d d₁ B := by
  refine { h with scopes := fun level hlevel x hx => ?_, exports := fun x hx => ?_ }
  · exact (h.scopes level hlevel x hx).imp_right fun (heq : x.2 = b) => heq ▸ hb
  · exact (h.exports x hx).imp_right fun (heq : x.2 = b) => heq ▸ hb

theorem of_scopes {scopes : Scopes} (houter : scopes.levels.tail = d.scopes.levels.tail)
    (hscopes : ∀ level ∈ scopes.levels, ∀ x ∈ level, (∃ level ∈ d.scopes.levels, x ∈ level) ∨ B x.2) :
    Binds site d { d with scopes } B :=
  ⟨rfl, rfl, houter, hscopes, fun _ hx => .inl hx, fun _ => rfl⟩

theorem refl (site : Site) (d : Draft) (B : Binding → Prop) : Binds site d d B :=
  of_scopes rfl fun level hlevel _ hx => .inl ⟨level, hlevel, hx⟩

/-- A level that holds what was there before, or the new name. -/
theorem of_level {scope level : Scope} {outer : List Scope} (hd : d.scopes.levels = scope :: outer)
    (hlevel : ∀ x ∈ level, x ∈ scope ∨ B x.2) : Binds site d { d with scopes := ⟨level :: outer⟩ } B := by
  refine of_scopes ?_ fun l hl x hx => ?_
  · rw [hd]
    rfl
  · rw [hd]
    rcases List.mem_cons.mp hl with rfl | hl
    · exact (hlevel x hx).imp_left fun hx => ⟨scope, List.mem_cons_self, hx⟩
    · exact .inl ⟨l, List.mem_cons_of_mem _ hl, hx⟩

theorem of_declare {name : Text} {scopes : Scopes} (h : d.scopes.declare? name b = some scopes) :
    Binds site d { d with scopes } (· = b) := by
  unfold Scopes.declare? at h
  split at h
  · cases h
  · rename_i scope outer hlevels
    split at h
    · cases h
    · cases h
      refine of_level hlevels fun x hx => ?_
      rcases List.mem_append.mp hx with hx | hx
      · exact .inl hx
      · exact .inr (by rw [List.mem_singleton.mp hx])

theorem of_replace (site : Site) (d : Draft) (name : Text) (b : Binding) :
    Binds site d { d with scopes := d.scopes.replace name b } (· = b) := by
  unfold Scopes.replace
  split
  · exact of_scopes rfl fun level hlevel x hx => .inl ⟨level, hlevel, hx⟩
  · rename_i scope outer hlevels
    refine of_level hlevels fun x hx => ?_
    unfold Scope.put at hx
    split at hx
    · obtain ⟨y, hy, rfl⟩ := List.mem_map.mp hx
      split
      · exact .inr rfl
      · exact .inl hy
    · rcases List.mem_append.mp hx with hx | hx
      · exact .inl hx
      · exact .inr (by rw [List.mem_singleton.mp hx])

end Binds

variable {site : Site} {σ σ' : State} {b : Binding}

theorem declare_ok {name : Text} {span : Span} {u : Unit} (h : declare name span b site σ = .ok (u, σ')) :
    ∃ d, σ' = { σ with draft := d } ∧ Binds site σ.draft d (· = b) := by
  obtain ⟨d, σ₁, hd, h⟩ := bind_ok.mp h
  obtain ⟨rfl, rfl⟩ := getDraft_ok.mp hd
  obtain ⟨s, σ₂, hs, h⟩ := bind_ok.mp h
  obtain ⟨rfl, rfl⟩ := read_ok.mp hs
  split at h
  · exact ⟨_, modifyDraft_ok.mp h, .of_replace _ _ _ _⟩
  · cases hscopes : σ₂.draft.scopes.declare? name b with
    | none => simp [hscopes] at h
    | some scopes =>
      simp only [hscopes] at h
      exact ⟨_, modifyDraft_ok.mp h, .of_declare hscopes⟩

theorem publish_ok {name : Text} {exported : Attr Bool} {span : Span} {u : Unit}
    (h : publish name exported b span site σ = .ok (u, σ')) :
    ∃ d, σ' = { σ with draft := d } ∧ Binds site σ.draft d (· = b) := by
  unfold publish at h
  split at h
  · obtain ⟨s, σ₁, hs, hrest⟩ := bind_ok.mp h
    obtain ⟨rfl, rfl⟩ := read_ok.mp hs
    simp only [reject_bind] at hrest
    split at hrest
    · exact (reject_ok.mp hrest).elim
    · rename_i hnone
      refine ⟨_, modifyDraft_ok.mp hrest, rfl, rfl, rfl, fun level hlevel x hx => .inl ⟨level, hlevel, hx⟩, ?_, ?_⟩
      · intro x hx
        rcases List.mem_append.mp hx with hx | hx
        · exact .inl hx
        · exact .inr (by rw [List.mem_singleton.mp hx])
      · intro hsome
        exact (hnone hsome).elim
  · obtain ⟨-, rfl⟩ := pure_ok.mp h
    exact ⟨_, rfl, .refl _ _ _⟩

/-- A number has been given out, and what has it may be in the tables. -/
structure Enters (s s' : Session) (space : Space) : Prop where
  next : s'.next space = Serial.next (s.next space)
  others : ∀ other, other ≠ space → s'.next other = s.next other
  finished : s'.finished = s.finished
  inProgress : s'.inProgress = s.inProgress
  previous : s'.previous = s.previous
  missing : s'.missing = s.missing
  grows : ∀ {given}, s.Sound given → s.Room [(space, s.next space)] → s'.Sound given ∧ s.Extends s'

section

variable {β : Type} {table : List (Int × β)} {n : Int}

theorem lookup_new (v : β) : List.lookup n ((n, v) :: table) = some v := by
  rw [List.lookup_cons, beq_self_eq_true]

/-- A new number hides nothing. -/
theorem lookup_old (h : ∀ x ∈ table, x.1 < n) {id : Int} {v w : β} (hv : table.lookup id = some v) :
    List.lookup id ((n, w) :: table) = some v := by
  have hne : id ≠ n := by
    intro heq
    have := h _ (mem_of_lookup hv)
    omega
  rw [List.lookup_cons, beq_eq_false_iff_ne.mpr hne]
  exact hv

theorem fresh_cons (h : ∀ x ∈ table, x.1 < n) {m : Int} (hm : n < m) (v : β) : ∀ x ∈ (n, v) :: table, x.1 < m := by
  intro x hx
  rcases List.mem_cons.mp hx with rfl | hx
  · exact hm
  · exact Int.lt_trans (h x hx) hm

end

namespace Enters

variable {s : Session} {space : Space}

theorem lt_next (h : s.Room [(space, s.next space)]) : s.next space < Serial.next (s.next space) := by
  obtain ⟨hpos, hlt⟩ := h space
  rw [idsOf_cons_self, idsOf_nil, List.length_singleton] at hlt
  rw [Serial.Given.next_of_lt hpos (by omega)]
  omega

theorem «variable» (s : Session) (v : Variable) :
    Enters s { s with nextVar := Serial.next s.nextVar, vars := (s.nextVar, v) :: s.vars } .variable := by
  refine ⟨rfl, fun other hother => ?_, rfl, rfl, rfl, rfl, fun h hroom => ?_⟩
  · cases other with
    | «variable» => exact (hother rfl).elim
    | _ => rfl
  · have hext : s.Extends { s with nextVar := Serial.next s.nextVar, vars := (s.nextVar, v) :: s.vars } :=
      ⟨fun hv => lookup_old h.vars hv, id, id, id⟩
    exact ⟨⟨fresh_cons h.vars (lt_next hroom) v, h.constants, h.functions, h.structs,
      fun before f after hf => (h.finished before f after hf).mono hext⟩, hext⟩

theorem constant (s : Session) (c : Constant) :
    Enters s { s with nextConst := Serial.next s.nextConst, constants := (s.nextConst, c) :: s.constants } .constant := by
  refine ⟨rfl, fun other hother => ?_, rfl, rfl, rfl, rfl, fun h hroom => ?_⟩
  · cases other with
    | constant => exact (hother rfl).elim
    | _ => rfl
  · have hext : s.Extends { s with nextConst := Serial.next s.nextConst, constants := (s.nextConst, c) :: s.constants } :=
      ⟨id, fun hc => lookup_old h.constants hc, id, id⟩
    exact ⟨⟨h.vars, fresh_cons h.constants (lt_next hroom) c, h.functions, h.structs,
      fun before f after hf => (h.finished before f after hf).mono hext⟩, hext⟩

theorem function (s : Session) (f : Function) :
    Enters s { s with nextFunc := Serial.next s.nextFunc, functions := (s.nextFunc, f) :: s.functions } .function := by
  refine ⟨rfl, fun other hother => ?_, rfl, rfl, rfl, rfl, fun h hroom => ?_⟩
  · cases other with
    | function => exact (hother rfl).elim
    | _ => rfl
  · have hext : s.Extends { s with nextFunc := Serial.next s.nextFunc, functions := (s.nextFunc, f) :: s.functions } :=
      ⟨id, id, fun hf => lookup_old h.functions hf, id⟩
    exact ⟨⟨h.vars, h.constants, fresh_cons h.functions (lt_next hroom) f, h.structs,
      fun before f after hf => (h.finished before f after hf).mono hext⟩, hext⟩

theorem struct (s : Session) (x : Structure) :
    Enters s { s with nextStruct := Serial.next s.nextStruct, structs := (s.nextStruct, x) :: s.structs } .struct := by
  refine ⟨rfl, fun other hother => ?_, rfl, rfl, rfl, rfl, fun h hroom => ?_⟩
  · cases other with
    | struct => exact (hother rfl).elim
    | _ => rfl
  · have hext : s.Extends { s with nextStruct := Serial.next s.nextStruct, structs := (s.nextStruct, x) :: s.structs } :=
      ⟨id, id, id, fun hx => lookup_old h.structs hx⟩
    exact ⟨⟨h.vars, h.constants, h.functions, fresh_cons h.structs (lt_next hroom) x,
      fun before f after hf => (h.finished before f after hf).mono hext⟩, hext⟩

theorem «alias» (s : Session) : Enters s { s with nextAlias := Serial.next s.nextAlias } .alias := by
  refine ⟨rfl, fun other hother => ?_, rfl, rfl, rfl, rfl, fun h _ => ?_⟩
  · cases other with
    | «alias» => exact (hother rfl).elim
    | _ => rfl
  · have hext : s.Extends { s with nextAlias := Serial.next s.nextAlias } := ⟨id, id, id, id⟩
    exact ⟨⟨h.vars, h.constants, h.functions, h.structs,
      fun before f after hf => (h.finished before f after hf).mono hext⟩, hext⟩

end Enters

/-- Names that lead to declarations from here on. -/
theorem Stands.bound {p : Place} {ds : List Referent} {B : Binding → Prop} (h : Stands site p σ)
    (hdraft : Binds site σ.draft σ'.draft B) (hext : σ.session.Extends σ'.session)
    (hsound : σ'.session.Sound site.settings.values) (hleads : ∀ b, B b → Leads σ'.session (ds ++ p.context) b)
    (hds : ∀ d ∈ ds, d.Proper ∧ σ'.session.Records d)
    (horder : ∀ f ∈ site.function, ∀ g, .function g ∈ ds → g.id ≤ f.id) : Stands site (p.after ds) σ' := by
  refine h.extend ds hext hsound (hdraft.wildcard.trans h.sees.wildcard) ?_ ?_ hds horder
  · exact fun level hlevel x hx => (hdraft.scopes level hlevel x hx).imp_right (hleads _)
  · exact fun x hx => (hdraft.exports x hx).imp_right (hleads _)

/-- A declaration: its name leads to it from here on. -/
theorem Step.declared {P Q : Claim} {D : Surroundings → List Referent} {space : Space}
    (hsession : Enters σ.session σ'.session space) (hdraft : Binds site σ.draft σ'.draft (· = b))
    (h : ∀ env p, Stands site p σ → P env p →
      Leads σ'.session (D env ++ p.context) b ∧ (∀ d ∈ D env, d.Proper ∧ σ'.session.Records d) ∧
        ∀ f ∈ site.function, ∀ g, .function g ∈ D env → g.id ≤ f.id)
    (hQ : ∀ env p, P env p → Q env p) :
    Step P site σ σ' [] [(space, σ.session.next space)] D Q := by
  refine ⟨[], ?_, fun env p hcovers hroom hstands hp => ?_⟩
  · refine ⟨?_, hdraft.outer, hdraft.published, ?_, ?_, hsession.inProgress, fun f hf => (by cases hf), hsession.previous,
      hsession.missing⟩
    · rw [hdraft.pending, List.append_nil]
    · rw [hsession.finished, List.append_nil]
    · exact .one hsession.next hsession.others
  · obtain ⟨hsound, hext⟩ := hsession.grows hstands.sound hroom.left
    obtain ⟨hleads, hds, horder⟩ := h env p hstands hp.here
    refine ⟨trivial, fun q hq => hQ env q (hp q hq), ?_, hext⟩
    exact hstands.bound hdraft hext hsound (fun _ hb => hb ▸ hleads) hds horder

/-- Where the first claim holds, a check gives out numbers, makes declarations, and its result is as the
second claim says. Outside functions it puts nothing before its statement. -/
structure Makes {α : Type} (P : Claim) (x : Check α) (ks : α → List Key) (D : Surroundings → α → List Referent)
    (Q : Surroundings → Place → α → Prop) : Prop where
  run : ∀ {site σ a σ'}, x site σ = .ok (a, σ') →
    ∃ qs, Step P site σ σ' qs (ks a) (fun env => D env a) (fun env p => Q env p a) ∧
      (site.function = none → qs = [])

namespace Makes

variable {α γ : Type} {P : Claim} {x : Check α} {ks : α → List Key} {D : Surroundings → α → List Referent}
  {Q : Surroundings → Place → α → Prop}

theorem reject {span : Span} {r : Rejection} : Makes P (Check.reject span r) ks D Q :=
  ⟨fun h => (reject_ok.mp h).elim⟩

theorem ite {c : Prop} [Decidable c] {y : Check α} (hx : c → Makes P x ks D Q) (hy : ¬c → Makes P y ks D Q) :
    Makes P (if c then x else y) ks D Q := by
  split
  · rename_i hc
    exact hx hc
  · rename_i hc
    exact hy hc

/-- A check of expressions comes first. -/
theorem bind {B : Place → Prop} {C : Place → γ → Prop} {y : Check γ} {f : γ → Check α} (hy : Delivers B y C)
    (hB : ∀ env p, P env p → B p) (hf : ∀ c, Makes (fun env p => P env p ∧ C p c) (f c) ks D Q) :
    Makes P (y >>= f) ks D Q := by
  refine ⟨fun {site σ a σ'} h => ?_⟩
  obtain ⟨c, σ₁, hy', hrest⟩ := bind_ok.mp h
  obtain ⟨qs, hstep, hnone⟩ := Step.of_delivers hy hy' hB
  obtain ⟨rs, hstep', hnone'⟩ := (hf c).run hrest
  refine ⟨qs ++ rs, ?_, fun h => by rw [hnone h, hnone' h]; rfl⟩
  exact (hstep.trans hstep').post fun _ _ h => h.2

/-- The values that are given for options are read. -/
theorem read {f : Site → Check α}
    (hf : ∀ site, Makes (fun env p => P env p ∧ env.given = site.settings.values ∧
      ∀ name v, site.settings.values.get? name = some v → v.HasType v.type) (f site) ks D Q) :
    Makes P (MonadReader.read >>= f) ks D Q := by
  refine ⟨fun {site σ a σ'} h => ?_⟩
  obtain ⟨s, σ₁, hs, hrest⟩ := bind_ok.mp h
  obtain ⟨rfl, rfl⟩ := read_ok.mp hs
  obtain ⟨qs, hstep, hnone⟩ := (hf s).run hrest
  exact ⟨qs, hstep.informed, hnone⟩

end Makes

theorem variableId_ok {id : Int} (h : variableId 0 site σ = .ok (id, σ')) :
    id = σ.session.nextVar ∧ σ' = { σ with session := { σ.session with nextVar := Serial.next σ.session.nextVar } } := by
  cases h
  exact ⟨rfl, rfl⟩

theorem constantId_ok {id : Int} (h : constantId 0 site σ = .ok (id, σ')) :
    id = σ.session.nextConst ∧
      σ' = { σ with session := { σ.session with nextConst := Serial.next σ.session.nextConst } } := by
  cases h
  exact ⟨rfl, rfl⟩

theorem functionId_ok {id : Int} (h : functionId 0 site σ = .ok (id, σ')) :
    id = σ.session.nextFunc ∧
      σ' = { σ with session := { σ.session with nextFunc := Serial.next σ.session.nextFunc } } := by
  cases h
  exact ⟨rfl, rfl⟩

theorem structId_ok {id : Int} (h : structId 0 site σ = .ok (id, σ')) :
    id = σ.session.nextStruct ∧
      σ' = { σ with session := { σ.session with nextStruct := Serial.next σ.session.nextStruct } } := by
  cases h
  exact ⟨rfl, rfl⟩

theorem aliasId_ok {id : Int} (h : aliasId 0 site σ = .ok (id, σ')) :
    id = σ.session.nextAlias ∧
      σ' = { σ with session := { σ.session with nextAlias := Serial.next σ.session.nextAlias } } := by
  cases h
  exact ⟨rfl, rfl⟩

end Shading.Check
