import Mathlib.Data.List.Flatten
import Mathlib.Data.List.Forall2
import Shading.Proofs.Check.Linking
import Shading.Proofs.Check.Walking
import Shading.Proofs.Module.Soundness

/-! Modules that are checked once more. Their structures and functions keep their numbers, structures keep their
members, and functions call nothing new. -/
namespace Shading

/-- A member that is there, of a known type. -/
structure StructMember.Resolved (m : StructMember) : Prop where
  there : m.cond = .absent
  known : ∃ i t, m.type = .typeRef i t ∧ i.type = t

/-- The name and the type of a member. -/
def StructMember.field (m : StructMember) : Text × Ty := (m.name, m.type.type)

theorem StructDecl.record_eq (d : StructDecl) : d.record = ⟨d.id, d.name, d.members.map StructMember.field⟩ := rfl

namespace Stmt

/-- A declaration that has been checked before: it has a number, and its calls are known. -/
def Settled (calls : Int → Int → Prop) : Stmt → Prop
  | .struct _ d => d.id ≠ 0 ∧ ∀ m ∈ d.members, m.Resolved
  | .function _ h body => h.id ≠ 0 ∧ ∀ s ∈ body, s.Linked (calls h.id)
  | _ => True

/-- What becomes of a declaration that is checked once more. -/
inductive Becomes (calls : Int → Int → Prop) : Stmt → Stmt → Prop
  | struct {span : Span} {d d' : StructDecl} : d'.record = d.record → (∀ m ∈ d'.members, m.Resolved) →
      Becomes calls (.struct span d) (.struct span d')
  | function {span : Span} {h h' : FnHead} {body body' : List Stmt} : h'.id = h.id →
      (∀ s ∈ body', s.Linked (calls h.id)) → Becomes calls (.function span h body) (.function span h' body')
  | importFrom {span : Span} {name : Text} {items : List ImportItem} :
      Becomes calls (.importFrom span name items) (.importFrom span name items)
  | option {span : Span} {d d' : OptionDecl} : Becomes calls (.option span d) (.option span d')
  | const {span : Span} {d d' : ConstDecl} : Becomes calls (.const span d) (.const span d')
  | alias {span : Span} {d d' : AliasDecl} : Becomes calls (.alias span d) (.alias span d')
  | external {span : Span} {set set' : Attr UInt32} {vars vars' : List External} :
      Becomes calls (.external span set vars) (.external span set' vars')

/-- The number of a structure or a function. -/
def headKey? : Stmt → Option Key
  | .struct _ d => some (.struct, d.id)
  | .function _ h _ => some (.function, h.id)
  | _ => none

variable {calls : Int → Int → Prop} {s s' : Stmt}

theorem Becomes.headKey (h : s.Becomes calls s') : s'.headKey? = s.headKey? := by
  cases h with
  | struct hrecord => exact congrArg (fun r : Record Ty => some (Space.struct, r.id)) hrecord
  | function hid => exact congrArg (fun id => some (Space.function, id)) hid
  | _ => rfl

end Stmt

namespace Check

variable {site : Site} {σ σ' : State}

/-- A number that is not zero is kept. -/
theorem number_ok {id n : Int} (next : Session → Int) (f : Int → Session → Session) (hid : id ≠ 0)
    (h : (do
      if id != 0 then return id
      let n := next (← getSession)
      modifySession (f n)
      return n : Check Int) site σ = .ok (n, σ')) : n = id := by
  dsimp only at h
  rw [if_pos (bne_iff_ne.mpr hid)] at h
  exact (pure_ok.mp h).1

theorem memberAttributes_ok {m m' : StructMember} {t : Ty} (h : memberAttributes m t site σ = .ok (m', σ')) :
    m'.cond = m.cond ∧ m'.name = m.name ∧ m'.type = m.type := by
  have hrest {builtin : Attr Builtin} {b : Bool} {σ₁ : State} (h : (do
      let location ← unsignedAttr m.location "location"
      if b && location.value.isSome then reject m.span (.builtinAndLocation m.name)
      return { m with builtin, location : StructMember } : Check StructMember) site σ₁ = .ok (m', σ')) :
      m'.cond = m.cond ∧ m'.name = m.name ∧ m'.type = m.type := by
    obtain ⟨location, σ₂, -, h⟩ := bind_ok.mp h
    simp only [reject_bind] at h
    split at h
    · exact (reject_ok.mp h).elim
    · obtain ⟨rfl, -⟩ := pure_ok.mp h
      exact ⟨rfl, rfl, rfl⟩
  obtain ⟨builtin, σ₁, -, h⟩ := bind_ok.mp h
  cases hvalue : builtin.value with
  | none =>
    simp only [hvalue] at h
    exact hrest h
  | some b =>
    simp only [hvalue, reject_bind] at h
    split at h
    · exact (reject_ok.mp h).elim
    · exact hrest h

/-- Resolved members keep their names and types. -/
theorem structMembers_ok {struct : Text} {seen : List Text} {ms : List StructMember} {rs : List (StructMember × Ty)}
    (hms : ∀ m ∈ ms, m.Resolved) (h : structMembers struct seen ms site σ = .ok (rs, σ')) :
    rs.map (·.1.field) = ms.map StructMember.field ∧ ∀ r ∈ rs, r.1.Resolved := by
  induction ms generalizing seen rs σ with
  | nil =>
    obtain ⟨rfl, -⟩ := pure_ok.mp h
    exact ⟨rfl, fun _ hr => absurd hr List.not_mem_nil⟩
  | cons m ms ih =>
    rw [List.forall_mem_cons] at hms
    obtain ⟨⟨hthere, i, t, htype, hi⟩, hms⟩ := hms
    have hexists : memberExists m = pure true := by
      rw [memberExists, if_pos (by rw [hthere]; rfl)]
    have hannotation : annotation m.type = pure (t, if t.isKnown then .ofType i.span t else .typeRef i t) := by
      rw [htype, annotation, typeOf?]
      rfl
    rw [structMembers, hexists, hannotation] at h
    simp only [pure_bind, Bool.not_true, Bool.false_eq_true, if_false, reject_bind] at h
    split at h
    · exact (reject_ok.mp h).elim
    obtain ⟨m', σ₁, hattributes, h⟩ := bind_ok.mp h
    obtain ⟨rest, σ₂, hrest, hpure⟩ := bind_ok.mp h
    obtain ⟨rfl, rfl⟩ := pure_ok.mp hpure
    obtain ⟨hcond, hname, htype'⟩ := memberAttributes_ok hattributes
    obtain ⟨hfields, hresolved⟩ := ih hms hrest
    have hknown : ∃ j, m'.type = .typeRef j t ∧ j.type = t := by
      rw [htype']
      dsimp only
      split
      · exact ⟨_, rfl, rfl⟩
      · exact ⟨_, rfl, hi⟩
    obtain ⟨j, hj, hjt⟩ := hknown
    refine ⟨?_, List.forall_mem_cons.mpr ⟨⟨hcond, j, t, hj, hjt⟩, hresolved⟩⟩
    rw [List.map_cons, List.map_cons, hfields]
    congr 1
    have ht : m'.type.type = m.type.type := by
      rw [hj, htype]
      exact hjt.trans hi.symm
    exact Prod.ext hname ht

/-- A structure keeps its number and its members. -/
theorem record_declareStruct {span : Span} {d d' : StructDecl} (hid : d.id ≠ 0) (hd : ∀ m ∈ d.members, m.Resolved)
    (h : declareStruct span d site σ = .ok (d', σ')) : d'.record = d.record ∧ ∀ m ∈ d'.members, m.Resolved := by
  obtain ⟨u, σ₁, -, h⟩ := bind_ok.mp h
  obtain ⟨layout, σ₂, -, h⟩ := bind_ok.mp h
  obtain ⟨exported, σ₃, -, h⟩ := bind_ok.mp h
  obtain ⟨members, σ₄, hmembers, h⟩ := bind_ok.mp h
  obtain ⟨id, σ₅, hstruct, h⟩ := bind_ok.mp h
  obtain ⟨u, σ₆, -, h⟩ := bind_ok.mp h
  obtain ⟨u, σ₇, -, h⟩ := bind_ok.mp h
  obtain ⟨u, σ₈, -, hpure⟩ := bind_ok.mp h
  obtain ⟨rfl, -⟩ := pure_ok.mp hpure
  obtain rfl : id = d.id := number_ok (·.nextStruct) (fun n s => { s with nextStruct := Serial.next n }) hid hstruct
  obtain ⟨hfields, hresolved⟩ := structMembers_ok hd hmembers
  refine ⟨?_, List.forall_mem_map.mpr hresolved⟩
  rw [StructDecl.record_eq, StructDecl.record_eq, ← hfields, List.map_map]
  rfl

/-- A function keeps its number. -/
theorem id_declareFunction {span : Span} {h h' : FnHead} {f : Function} (hid : h.id ≠ 0)
    (hrun : declareFunction span h site σ = .ok ((h', f), σ')) : h'.id = h.id := by
  unfold declareFunction at hrun
  simp only [ite_bind] at hrun
  obtain ⟨u, σ₁, -, hrun⟩ := bind_ok.mp hrun
  obtain ⟨head, σ₂, -, hrun⟩ := bind_ok.mp hrun
  obtain ⟨params, σ₃, -, hrun⟩ := bind_ok.mp hrun
  obtain ⟨result, σ₄, -, hrun⟩ := bind_ok.mp hrun
  obtain ⟨id, σ₅, hfunction, hrun⟩ := bind_ok.mp hrun
  obtain ⟨u, σ₆, -, hrun⟩ := bind_ok.mp hrun
  obtain ⟨u, σ₇, -, hrun⟩ := bind_ok.mp hrun
  obtain ⟨u, σ₈, -, hpure⟩ := bind_ok.mp hrun
  obtain ⟨heq, -⟩ := pure_ok.mp hpure
  cases heq
  exact number_ok (·.nextFunc) (fun n s => { s with nextFunc := Serial.next n }) hid hfunction

variable {calls : Int → Int → Prop} {load : Loader}

theorem Declares.becomes {s s' : Stmt} (h : Declares load site σ s s' σ') (hs : s.Settled calls) :
    s.Becomes calls s' := by
  cases h with
  | importFrom => exact .importFrom
  | option => exact .option
  | const => exact .const
  | «alias» => exact .alias
  | external => exact .external
  | struct h =>
    obtain ⟨hrecord, hmembers⟩ := record_declareStruct hs.1 hs.2 h
    exact .struct hrecord hmembers
  | function hhead _ hbody _ =>
    have hid := id_declareFunction hs.1 hhead
    exact .function hid (linked_of_statements rfl hs.2 hbody)

end Check

theorem exists_of_forall₂ {α β : Type} {R : α → β → Prop} {as : List α} {bs : List β} (h : List.Forall₂ R as bs) {b : β}
    (hb : b ∈ bs) : ∃ a ∈ as, R a b := by
  induction h with
  | nil => cases hb
  | cons hab _ ih =>
    rcases List.mem_cons.mp hb with rfl | hb
    · exact ⟨_, List.mem_cons_self, hab⟩
    · obtain ⟨a, ha, hab⟩ := ih hb
      exact ⟨a, List.mem_cons_of_mem _ ha, hab⟩

/-- Each declaration is what becomes of one of some others, in their order. -/
def Follows (calls : Int → Int → Prop) (ls rs : List (Bool × Stmt)) : Prop :=
  ∃ ms : List (Bool × Stmt), ms.Sublist ls ∧ List.Forall₂ (fun l r => l.2.Becomes calls r.2) ms rs

namespace Follows

variable {calls : Int → Int → Prop} {ls ls' rs rs' : List (Bool × Stmt)}

theorem none : Follows calls ls [] := ⟨[], List.nil_sublist _, .nil⟩

theorem append (h : Follows calls ls rs) (h' : Follows calls ls' rs') : Follows calls (ls ++ ls') (rs ++ rs') := by
  obtain ⟨ms, hms, hrs⟩ := h
  obtain ⟨ms', hms', hrs'⟩ := h'
  exact ⟨ms ++ ms', hms.append hms', List.rel_append hrs hrs'⟩

/-- What becomes of a declaration comes from one. -/
theorem of_mem (h : Follows calls ls rs) {r : Bool × Stmt} (hr : r ∈ rs) : ∃ l ∈ ls, l.2.Becomes calls r.2 := by
  obtain ⟨ms, hms, hrs⟩ := h
  obtain ⟨l, hl, hbecomes⟩ := exists_of_forall₂ hrs hr
  exact ⟨l, hms.subset hl, hbecomes⟩

/-- Numbers stay in their order. -/
theorem headKeys (h : Follows calls ls rs) :
    (rs.filterMap fun r => r.2.headKey?).Sublist (ls.filterMap fun l => l.2.headKey?) := by
  obtain ⟨ms, hms, hrs⟩ := h
  suffices heq : (rs.filterMap fun r => r.2.headKey?) = ms.filterMap fun l => l.2.headKey? by
    rw [heq]
    exact hms.filterMap _
  clear hms
  induction hrs with
  | nil => rfl
  | cons hbecomes _ ih => rw [List.filterMap_cons, List.filterMap_cons, hbecomes.headKey, ih]

end Follows

namespace Check

variable {settings : CheckSettings} {R : State → State → Prop} {load : Loader} {calls : Int → Int → Prop}

theorem Walk.follows {σ σ' : State} {ls rs : List (Bool × Stmt)} (h : Walk settings R load σ ls rs σ')
    (hls : ∀ l ∈ ls, l.2.Settled calls) : Follows calls ls rs := by
  induction h with
  | between => exact .none
  | leaveOut => exact .none
  | declaration c _ hdeclares =>
    exact ⟨_, .refl _, .cons (hdeclares.becomes (hls _ List.mem_cons_self)) .nil⟩
  | append _ _ ih ih' =>
    rw [List.forall_mem_append] at hls
    exact (ih hls.1).append (ih' hls.2)

end Check

namespace Module

/-- Each of the modules that a module imports, and the module itself, are what becomes of modules that have been
checked before. -/
structure Rechecks (calls : Int → Int → Prop) (r v : Module) : Prop where
  root : Follows calls r.leaves v.leaves
  imported : ∀ x ∈ v.imported, ∃ u, (x.1, u) ∈ r.imported ∧ Follows calls u.leaves x.2.leaves
  nodup : (v.imported.map (·.1)).Nodup

/-- A check of a module whose declarations have numbers, where modules are not looked up anew. -/
theorem rechecks_check {settings : CheckSettings} {r v : Module} {calls : Int → Int → Prop}
    (hstrict : settings.lenient = false) (hresolver : settings.resolver = none)
    (hr : ∀ u ∈ r.units, ∀ l ∈ u.leaves, l.2.Settled calls) (h : r.check settings = .ok v) : r.Rechecks calls v := by
  have hgood : Check.MakesGood settings fun V name v =>
      ∃ u, V.lookup name = some u ∧ ((∀ l ∈ u.leaves, l.2.Settled calls) → Follows calls u.leaves v.leaves) := by
    intro load name u v σ σ' hload hfinds _ _ hbody
    rcases hfinds with hlookup | ⟨-, x, hx, -⟩
    · exact ⟨u, hlookup, (Check.walk_body hload rfl rfl false hbody).follows⟩
    · rw [hresolver] at hx
      cases hx
  have hprevious : r.opened.previous = r.imported.reverse := by
    rw [opened, (Check.Session.reserve_modules {} r).2.2]
    exact List.append_nil _
  have hfinite : settings.Finite := by
    intro x hx
    rw [hresolver] at hx
    cases hx
  obtain ⟨⟨load, σ, -, -, hwalk⟩, himported⟩ := Check.check_walk hgood h
  refine ⟨hwalk.follows (hr r (List.mem_append_right _ List.mem_cons_self)), fun x hx => ?_, ?_⟩
  · obtain ⟨u, hlookup, hfollows⟩ := himported x hx
    rw [hprevious] at hlookup
    have hu : (x.1, u) ∈ r.imported := List.mem_reverse.mp (Check.mem_of_lookup hlookup)
    exact ⟨u, hu, hfollows (hr u (List.mem_append_left _ (List.mem_map_of_mem hu)))⟩
  · obtain ⟨cs, s, himports, hmodules, -, -⟩ := session_of_check hstrict hfinite h
    rw [hmodules, Check.modules, List.map_map]
    exact (himports.orderly (orderly_opened r)).nodup

end Module

-- The structures and functions of a specialized module: their numbers tell them apart, functions call such as have
-- lower numbers, and what structures are made of is known from the module.

namespace Stmt

theorem mem_leavesAll {c : Bool} {ss : List Stmt} {l : Bool × Stmt} :
    l ∈ leavesAll c ss ↔ ∃ s ∈ ss, l ∈ leaves c s := by
  induction ss with
  | nil => simp [leavesAll]
  | cons s ss ih => simp [leavesAll, ih]

theorem mem_leavesArms {arms : List (Expr × Stmt)} {l : Bool × Stmt} :
    l ∈ leavesArms arms ↔ ∃ s ∈ arms.map (·.2), l ∈ leaves true s := by
  induction arms with
  | nil => simp [leavesArms]
  | cons a arms ih =>
    obtain ⟨e, s⟩ := a
    simp [leavesArms, ih]

/-- A declaration of a module stands at a place outside functions. -/
theorem Everywhere.of_mem_leaves {env : Surroundings} {P : Place → Node → Prop} {Δ : List Referent}
    (himports : env.ImportsWithin Δ) {c : Bool} {s : Stmt} {p : Place} (hp : p.context ⊆ Δ) (hf : p.function = none)
    (hs : s.declarations env.given ⊆ Δ) (h : Everywhere env P p s) {l : Bool × Stmt} (hl : l ∈ s.leaves c) :
    .stmt l.2 ∈ s.nodes ∧ ∃ q : Place, q.context ⊆ Δ ∧ q.function = none ∧ Here P q l.2 := by
  induction s using induction_children generalizing c p with
  | h s ih =>
    have inside {k : Stmt} {q : Place} {c' : Bool} (habsent : s.isAbsent = false) (hk : k ∈ s.children)
        (hq : q.context ⊆ Δ) (hqf : q.function = none) (hqk : Everywhere env P q k) (hl : l ∈ k.leaves c') :
        .stmt l.2 ∈ s.nodes ∧ ∃ q : Place, q.context ⊆ Δ ∧ q.function = none ∧ Here P q l.2 := by
      obtain ⟨hmem, hplace⟩ := ih k hk hq hqf (List.Subset.trans (declarations_subset env.given hk) hs) hqk hl
      exact ⟨(mem_nodes habsent).mpr (.inr (.inr ⟨k, hk, hmem⟩)), hplace⟩
    have here (habsent : s.isAbsent = false) (hleaf : l.2 = s) :
        .stmt l.2 ∈ s.nodes ∧ ∃ q : Place, q.context ⊆ Δ ∧ q.function = none ∧ Here P q l.2 := by
      rw [hleaf]
      exact ⟨(mem_nodes habsent).mpr (.inl rfl), p, hp, hf, h.here habsent⟩
    cases s with
    | multi span body =>
      obtain ⟨k, hk, hl⟩ := mem_leavesAll.mp hl
      have hbody (k : Stmt) (hk : k ∈ body) : k.declarations env.given ⊆ Δ := by
        have hchild : k.declarations env.given ⊆ (Stmt.multi span body).declarations env.given :=
          declarations_subset env.given hk
        exact List.Subset.trans hchild hs
      obtain ⟨q, hq, hqf, hqk⟩ := EverywhereAll.of_mem himports hp hbody h.2 hk
      exact inside rfl hk hq (hqf.trans hf) hqk hl
    | «scoped» span body => exact inside rfl List.mem_cons_self hp hf h.2 hl
    | conditional span cond body => exact inside rfl List.mem_cons_self hp hf h.2 hl
    | branch span isConst arms otherwise =>
      rcases List.mem_append.mp hl with hl | hl
      · obtain ⟨k, hk, hl⟩ := mem_leavesArms.mp hl
        exact inside rfl (List.mem_append_left _ hk) hp hf (h.2.1.of_mem hk) hl
      · exact inside rfl (List.mem_append_right _ List.mem_cons_self) hp hf h.2.2 hl
    | importFrom | option | const | «alias» | struct | external | function =>
      exact here rfl (congrArg Prod.snd (List.mem_singleton.mp hl))
    | _ => cases hl

mutual

/-- The numbers of the declarations of a module that are structures and functions are some of its numbers. -/
theorem headKeys_leaves (c : Bool) (s : Stmt) : ((s.leaves c).filterMap fun l => l.2.headKey?).Sublist s.keys := by
  rw [keys_eq]
  cases s with
  | multi span body => exact headKeys_leavesAll c body
  | «scoped» span body | conditional span cond body =>
    exact (headKeys_leaves true body).trans (List.sublist_append_left _ _)
  | branch span isConst arms otherwise =>
    rw [leaves, List.filterMap_append, children, List.flatMap_append, List.flatMap_singleton]
    exact (headKeys_leavesArms arms).append (headKeys_leaves true otherwise)
  | struct span d => exact List.sublist_append_left _ _
  | function span head body => exact (List.nil_sublist _).cons_cons _
  | _ => exact List.nil_sublist _

theorem headKeys_leavesAll (c : Bool) (ss : List Stmt) :
    ((leavesAll c ss).filterMap fun l => l.2.headKey?).Sublist (ss.flatMap keys) := by
  cases ss with
  | nil => exact List.nil_sublist _
  | cons s ss =>
    rw [leavesAll, List.filterMap_append]
    exact (headKeys_leaves c s).append (headKeys_leavesAll c ss)

theorem headKeys_leavesArms (arms : List (Expr × Stmt)) :
    ((leavesArms arms).filterMap fun l => l.2.headKey?).Sublist ((arms.map (·.2)).flatMap keys) := by
  match arms with
  | [] => exact List.nil_sublist _
  | (e, s) :: arms =>
    rw [leavesArms, List.filterMap_append]
    exact (headKeys_leaves true s).append (headKeys_leavesArms arms)

end

/-- The structure that a statement declares. -/
def record? : Stmt → Option (Record Ty)
  | .struct _ d => some d.record
  | _ => none

theorem mem_own_struct {given : OptionValues} {s : Stmt} {d : Record Ty} :
    .struct d ∈ s.own given ↔ s.record? = some d := by
  cases s with
  | struct span d' =>
    rw [own, List.mem_singleton, record?, Option.some.injEq, Referent.struct.injEq]
    exact eq_comm
  | _ =>
    simp [own, record?, VarDecl.declaration, ConstDecl.declaration, OptionDecl.declaration, FnParam.declaration,
      External.declaration, RangeHead.declaration, EachHead.declaration]

end Stmt

namespace Module

/-- The structures that a checked module and those that it imports declare. -/
def records (r : Module) : List (Record Ty) :=
  r.units.flatMap fun u => (u.rootStmt.nodes.filterMap Node.stmt?).filterMap Stmt.record?

theorem mem_records {r : Module} (given : OptionValues) {d : Record Ty} :
    d ∈ r.records ↔ .struct d ∈ r.declared given := by
  simp only [records, declared, Stmt.declarations, List.mem_flatMap, List.mem_filterMap (f := Stmt.record?),
    Stmt.mem_own_struct]

theorem own_subset_declared {r u : Module} {given : OptionValues} (hu : u ∈ r.units) {s : Stmt}
    (hs : .stmt s ∈ u.rootStmt.nodes) : s.own given ⊆ r.declared given := fun _ hd =>
  List.mem_flatMap.mpr ⟨u, hu, List.mem_flatMap.mpr ⟨s, List.mem_filterMap.mpr ⟨_, hs, rfl⟩, hd⟩⟩

namespace ChecksTo

variable {settings : CheckSettings} {m r u : Module}

theorem of_mem_leaves (h : ChecksTo settings m r) (hu : u ∈ r.units) {l : Bool × Stmt} (hl : l ∈ u.leaves) :
    .stmt l.2 ∈ u.rootStmt.nodes ∧ ∃ q : Place, q.context ⊆ r.declared settings.values ∧ q.function = none ∧
      Stmt.Here Node.Valid q l.2 := by
  obtain ⟨-, hvalid⟩ := h.sound
  obtain ⟨before, himports, hdeclared, hroot⟩ := hvalid.unit hu
  exact hroot.of_mem_leaves himports (List.nil_subset _) rfl hdeclared hl

/-- The numbers of declarations are not zero. -/
theorem id_ne_zero (h : ChecksTo settings m r) {d : Referent} (hd : d ∈ r.declared settings.values) : d.key.2 ≠ 0 := by
  have hkey : d.key ∈ r.keys := map_key_declared settings.values r ▸ List.mem_map_of_mem hd
  have hone := h.keys_bounds.2 d.key hkey
  omega

/-- The declarations of a checked module have numbers, and the calls in them are calls of the module. -/
theorem settled (h : ChecksTo settings m r) (hu : u ∈ r.units) {l : Bool × Stmt} (hl : l ∈ u.leaves) :
    l.2.Settled r.Calls := by
  obtain ⟨hnode, q, hq, hf, hhere⟩ := h.of_mem_leaves hu hl
  have hown : l.2.own settings.values ⊆ r.declared settings.values := own_subset_declared hu hnode
  obtain ⟨c, s⟩ := l
  cases s with
  | struct span d =>
    refine ⟨h.id_ne_zero (hown List.mem_cons_self), fun x hx => ?_⟩
    obtain ⟨⟨i, t, htype⟩, hcond⟩ := hhere.1 x hx
    have hexpr : x.type ∈ (Stmt.struct span d).ownExprs := by
      refine List.mem_cons_of_mem _ (List.mem_cons_of_mem _ (List.mem_flatMap.mpr ⟨x, hx, List.mem_cons_self⟩))
    have hvalid := hhere.2 x.type hexpr _ (Expr.mem_nodes_self (by rw [htype]; rfl))
    rw [htype] at hvalid
    exact ⟨hcond, i, t, htype, hvalid.2.1.1⟩
  | function span head body =>
    refine ⟨h.id_ne_zero (hown List.mem_cons_self), fun x hx n hn => ?_⟩
    obtain ⟨-, hvalid⟩ := h.sound
    obtain ⟨p, -, -, hpn⟩ := hvalid.in_body Node.Valid.outside hu hnode hx hn
    cases n with
    | stmt t => trivial
    | expr e =>
      obtain ⟨-, hconsistent, -⟩ := hpn
      cases e with
      | name | member | method => exact hconsistent.elim
      | call i target args =>
        obtain ⟨j, f, rfl, -⟩ := hconsistent
        exact ⟨j, f.id, rfl, u, hu, span, head, body, hnode, rfl, x, hx, i, j, args, hn⟩
      | _ => trivial
  | _ => trivial

/-- The structures that the members of a structure are made of are declared ones. -/
theorem closed (h : ChecksTo settings m r) (hu : u ∈ r.units) {c : Bool} {span : Span} {d : StructDecl}
    (hl : (c, .struct span d) ∈ u.leaves) {f : Text × Ty} (hf : f ∈ d.record.members) {x : Record Ty}
    (hx : f.2.innermost = .struct x) : x ∈ r.records := by
  obtain ⟨-, q, hq, hfunction, hhere⟩ := h.of_mem_leaves hu hl
  obtain ⟨y, hy, rfl⟩ := List.mem_map.mp hf
  obtain ⟨⟨i, t, htype⟩, -⟩ := hhere.1 y hy
  have hexpr : y.type ∈ (Stmt.struct span d).ownExprs :=
    List.mem_cons_of_mem _ (List.mem_cons_of_mem _ (List.mem_flatMap.mpr ⟨y, hy, List.mem_cons_self⟩))
  have hvalid := hhere.2 y.type hexpr _ (Expr.mem_nodes_self (by rw [htype]; rfl))
  rw [htype] at hvalid
  obtain ⟨-, ⟨hi, -⟩, hdescends⟩ := hvalid
  replace hx : i.type.innermost = .struct x := by
    simp only [htype] at hx
    exact hx
  rw [hi] at hx
  exact (mem_records settings.values).mpr (hq (hdescends hfunction x hx))

/-- Structures are told apart by their numbers. -/
theorem record_inj (h : ChecksTo settings m r) {d e : Record Ty} (hd : d ∈ r.records) (he : e ∈ r.records)
    (hid : d.id = e.id) : d = e := by
  have hnodup := h.keys_bounds.1
  rw [← map_key_declared settings.values] at hnodup
  have hkey : (Referent.struct d).key = (Referent.struct e).key := by simp only [Referent.key, hid]
  cases List.inj_on_of_nodup_map hnodup ((mem_records settings.values).mp hd) ((mem_records settings.values).mp he) hkey
  rfl

theorem nodup_keys (h : ChecksTo settings m r) (hu : u ∈ r.units) : u.rootStmt.keys.Nodup := by
  have hnodup := h.keys_bounds.1
  rw [keys, List.nodup_flatMap] at hnodup
  exact hnodup.1 u hu

/-- No number is used by two of the imported modules. -/
theorem imported_apart (h : ChecksTo settings m r) {x y : Text × Module} (hx : x ∈ r.imported) (hy : y ∈ r.imported)
    {k : Key} (hkx : k ∈ x.2.rootStmt.keys) (hky : k ∈ y.2.rootStmt.keys) : x = y := by
  have hnodup := h.keys_bounds.1
  rw [keys, units, List.flatMap_append, List.nodup_append, List.flatMap_map, List.nodup_flatMap] at hnodup
  have hsymm : Std.Symm (Function.onFun List.Disjoint fun x : Text × Module => x.2.rootStmt.keys) :=
    ⟨fun _ _ => List.disjoint_symm⟩
  by_contra hne
  exact hnodup.1.2.forall hx hy hne hkx hky

/-- The module itself uses none of the numbers of the modules that it imports. -/
theorem root_apart (h : ChecksTo settings m r) {x : Text × Module} (hx : x ∈ r.imported) {k : Key}
    (hkx : k ∈ x.2.rootStmt.keys) : k ∉ r.rootStmt.keys := by
  have hnodup := h.keys_bounds.1
  rw [keys, units, List.flatMap_append, List.nodup_append, List.flatMap_singleton] at hnodup
  exact fun hk => hnodup.2.2 k (List.mem_flatMap.mpr ⟨x.2, List.mem_map_of_mem hx, hkx⟩) k hk rfl

end ChecksTo

end Module

/-- The number of a structure or a function. -/
def Declaration.headKey? : Declaration → Option Key
  | .struct d => some (.struct, d.id)
  | .function f => some (.function, f.head.id)
  | _ => none

namespace Specialization

theorem headKeys_declared (own : Bool) (l : Bool × Stmt) :
    (declared own l).filterMap Declaration.headKey? = l.2.headKey?.toList := by
  obtain ⟨c, s⟩ := l
  cases s with
  | external span set vars =>
    change (vars.map Declaration.external).filterMap Declaration.headKey? = []
    rw [List.filterMap_map]
    exact List.filterMap_none vars
  | _ => rfl

variable {calls : Int → Int → Prop} {c : Constants} {own unconditional : Bool} {u v : Module} {ds : List Declaration}

theorem headKeys_collect (hfollows : Follows calls u.leaves v.leaves)
    (h : collect c own unconditional v.rootStmt = .ok ds) :
    (ds.filterMap Declaration.headKey?).Sublist u.rootStmt.keys := by
  obtain ⟨ms, hms, rfl⟩ := collect_leaves unconditional v.rootStmt h
  have hkeys : (ms.flatMap (declared own)).filterMap Declaration.headKey? = (ms.map (·.2)).filterMap Stmt.headKey? := by
    rw [List.filterMap_flatMap, List.filterMap_map, List.filterMap_eq_flatMap_toList]
    exact List.flatMap_congr fun l _ => headKeys_declared own l
  have hstmts := hms.map (·.2)
  rw [Stmt.leaves_map_snd] at hstmts
  have hleaves := hstmts.filterMap Stmt.headKey?
  rw [← hkeys, List.filterMap_map] at hleaves
  exact hleaves.trans (hfollows.headKeys.trans (Stmt.headKeys_leaves false u.rootStmt))

/-- A declaration that is there comes from one that has been checked before. -/
theorem origin_collect (hfollows : Follows calls u.leaves v.leaves) (h : collect c own unconditional v.rootStmt = .ok ds)
    {d : Declaration} (hd : d ∈ ds) :
    ∃ l ∈ u.leaves, ∃ b s, l.2.Becomes calls s ∧ d ∈ declared own (b, s) := by
  obtain ⟨ms, hms, rfl⟩ := collect_leaves unconditional v.rootStmt h
  obtain ⟨l, hl, hd⟩ := List.mem_flatMap.mp hd
  have hstmt : l.2 ∈ v.leaves.map (·.2) := by
    rw [Module.leaves, ← Stmt.leaves_map_snd (!unconditional)]
    exact List.mem_map_of_mem (hms.subset hl)
  obtain ⟨l', hl', heq⟩ := List.mem_map.mp hstmt
  obtain ⟨l₀, hl₀, hbecomes⟩ := hfollows.of_mem hl'
  exact ⟨l₀, hl₀, l.1, l.2, heq ▸ hbecomes, hd⟩

theorem struct_declared {b : Bool} {x : Stmt} {d : StructDecl} (h : .struct d ∈ declared own (b, x)) :
    ∃ span, x = .struct span d := by
  cases x with
  | struct span d' =>
    cases List.mem_singleton.mp h
    exact ⟨_, rfl⟩
  | external span set vars =>
    obtain ⟨v, -, hv⟩ := List.mem_map.mp h
    cases hv
  | _ => simp [declared] at h

/-- What is known of the structures and functions of a specialized module. -/
structure Founded (r : Module) (s : Specialization) : Prop where
  nodup : (s.declarations.filterMap Declaration.headKey?).Nodup
  origin : ∀ d ∈ s.declarations, ∃ u ∈ r.units, ∃ l ∈ u.leaves, ∃ own b x,
    l.2.Becomes r.Calls x ∧ d ∈ declared own (b, x)

variable {settings lowerings : CheckSettings} {m r : Module} {s : Specialization}

/-- Modules of different names have no number in common. -/
theorem nodup_imported (h : m.ChecksTo settings r) {xs : List (Text × Module)} {dss : List (List Declaration)}
    (hnodup : (xs.map (·.1)).Nodup)
    (hfrom : List.Forall₂ (fun x ds => ∃ u, (x.1, u) ∈ r.imported ∧
      (ds.filterMap Declaration.headKey?).Sublist u.rootStmt.keys) xs dss) :
    (dss.flatten.filterMap Declaration.headKey?).Nodup := by
  induction hfrom with
  | nil => exact List.nodup_nil
  | @cons x ds xs dss hx hxs ih =>
    obtain ⟨u, hu, hkeys⟩ := hx
    rw [List.map_cons, List.nodup_cons] at hnodup
    have hown : u.rootStmt.keys.Nodup := h.nodup_keys (List.mem_append_left _ (List.mem_map_of_mem hu))
    rw [List.flatten_cons, List.filterMap_append]
    refine List.nodup_append.mpr ⟨hkeys.nodup hown, ih hnodup.2, fun k hk k' hk' heq => ?_⟩
    subst heq
    obtain ⟨d, hd, hdk⟩ := List.mem_filterMap.mp hk'
    obtain ⟨ds', hds', hd⟩ := List.mem_flatten.mp hd
    obtain ⟨y, hy, w, hw, hwkeys⟩ := exists_of_forall₂ hxs hds'
    have hkw : k ∈ w.rootStmt.keys := hwkeys.subset (List.mem_filterMap.mpr ⟨d, hd, hdk⟩)
    have hsame := h.imported_apart hu hw (hkeys.subset hk) hkw
    exact hnodup.1 (List.mem_map.mpr ⟨y, hy, (congrArg Prod.fst hsame).symm⟩)

/-- A module that is checked once more with the lowerings of a target. -/
theorem founded (h : m.ChecksTo settings r) (hstrict : lowerings.lenient = false) (hresolver : lowerings.resolver = none)
    (hs : ofModule (some r) lowerings = .ok s) : s.Founded r := by
  obtain ⟨hcheck, imported, own, himported, hown, hdeclarations⟩ := ofModule_ok hs
  have hrechecks := Module.rechecks_check hstrict hresolver (fun u hu l hl => h.settled hu hl) hcheck
  have hfrom : List.Forall₂ (fun x ds => ∃ u, (x.1, u) ∈ r.imported ∧ Follows r.Calls u.leaves x.2.leaves ∧
      collect s.constants false false x.2.rootStmt = .ok ds) s.result.imported imported := by
    refine ((List.forall₂_and_left (p := fun x => ∃ u, (x.1, u) ∈ r.imported ∧ Follows r.Calls u.leaves x.2.leaves)
      _ _).mpr ⟨hrechecks.imported, mapM_eq_ok_iff.mp himported⟩).imp ?_
    rintro x ds ⟨⟨u, hu, hfollows⟩, hds⟩
    exact ⟨u, hu, hfollows, hds⟩
  constructor
  · rw [hdeclarations, List.filterMap_append]
    refine List.nodup_append.mpr ⟨nodup_imported h hrechecks.nodup (hfrom.imp ?_), ?_, fun k hk k' hk' heq => ?_⟩
    · rintro x ds ⟨u, hu, hfollows, hds⟩
      exact ⟨u, hu, headKeys_collect hfollows hds⟩
    · exact (headKeys_collect hrechecks.root hown).nodup (h.nodup_keys (List.mem_append_right _ List.mem_cons_self))
    · subst heq
      obtain ⟨d, hd, hdk⟩ := List.mem_filterMap.mp hk
      obtain ⟨ds, hds, hd⟩ := List.mem_flatten.mp hd
      obtain ⟨x, -, u, hu, hfollows, hcollect⟩ := exists_of_forall₂ hfrom hds
      have hku := (headKeys_collect hfollows hcollect).subset (List.mem_filterMap.mpr ⟨d, hd, hdk⟩)
      exact h.root_apart hu hku ((headKeys_collect hrechecks.root hown).subset hk')
  · intro d hd
    rw [hdeclarations] at hd
    rcases List.mem_append.mp hd with hd | hd
    · obtain ⟨ds, hds, hd⟩ := List.mem_flatten.mp hd
      obtain ⟨x, -, u, hu, hfollows, hcollect⟩ := exists_of_forall₂ hfrom hds
      obtain ⟨l, hl, b, t, hbecomes, hdeclared⟩ := origin_collect hfollows hcollect hd
      exact ⟨u, List.mem_append_left _ (List.mem_map_of_mem hu), l, hl, _, b, t, hbecomes, hdeclared⟩
    · obtain ⟨l, hl, b, t, hbecomes, hdeclared⟩ := origin_collect hrechecks.root hown hd
      exact ⟨r, List.mem_append_right _ List.mem_cons_self, l, hl, _, b, t, hbecomes, hdeclared⟩

namespace Founded

/-- A structure is one of the module. -/
theorem structure_of_mem (h : s.Founded r) (hr : m.ChecksTo settings r) {d : StructDecl} (hd : d ∈ s.structs) :
    d.record ∈ r.records ∧ (∀ x ∈ d.members, x.Resolved) ∧
      ∀ f ∈ d.record.members, ∀ x, f.2.innermost = .struct x → x ∈ r.records := by
  obtain ⟨d', hd', hdd⟩ := List.mem_filterMap.mp hd
  cases d' <;> cases hdd
  obtain ⟨u, hu, l, hl, own, b, x, hbecomes, hdeclared⟩ := h.origin _ hd'
  obtain ⟨span, hx⟩ := struct_declared hdeclared
  rw [hx] at hbecomes
  obtain ⟨c, leaf⟩ := l
  cases leaf with
  | struct span' d₀ =>
    cases hbecomes with
    | struct hrecord hmembers =>
      obtain ⟨hnode, -⟩ := hr.of_mem_leaves hu hl
      have hown : Stmt.own settings.values _ ⊆ r.declared settings.values := Module.own_subset_declared hu hnode
      rw [hrecord]
      refine ⟨(Module.mem_records settings.values).mpr (hown List.mem_cons_self), hmembers, fun f hf x hx => ?_⟩
      exact hr.closed hu hl hf hx
  | _ => cases hbecomes

end Founded

end Specialization

end Shading
