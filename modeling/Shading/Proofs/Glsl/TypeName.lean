import Shading.Proofs.Glsl.Naming

/-! The names of types. Types that are equal are written in the same way, apart from structures: each declaration of
one has a name of its own. Equal types have one name exactly if no two of the structures that are there are equal. -/
namespace Shading

namespace Ty

/-- Arrays of equal types are written in the same way behind the name. -/
theorem same_innermost {t u : Ty} (h : t.same u) :
    t.innermost.same u.innermost ∧ Glsl.arraySuffix t = Glsl.arraySuffix u := by
  induction t using innermost.induct generalizing u with
  | case1 t n ih =>
    cases u with
    | array u k =>
      obtain ⟨hn, hsame⟩ := Bool.and_eq_true_iff.mp h
      obtain ⟨hinnermost, hsuffix⟩ := ih hsame
      rw [Glsl.arraySuffix, Glsl.arraySuffix, hsuffix, beq_iff_eq.mp hn]
      exact ⟨hinnermost, rfl⟩
    | _ => cases h
  | case2 t hplain =>
    cases t with
    | array t n => exact absurd rfl (hplain t n)
    | _ =>
      cases u with
      | array u k => cases h
      | _ => exact ⟨h, rfl⟩

end Ty

namespace Glsl

/-- The name of a type with the sizes of arrays behind it, if it has one. -/
def nameOf (names : List (Int × Text)) (t : Ty) : Except FormError Text :=
  (elementName names t.innermost).map (· ++ arraySuffix t)

theorem typeName_eq (t : Ty) (c : Context) (σ : State) :
    ∃ σ', typeName t c σ = .ok (nameOf σ.structs t, σ') ∧ σ'.structs = σ.structs := ⟨_, rfl, rfl⟩

/-- Types other than structures have one name if they are equal. -/
theorem elementName_of_same {names : List (Int × Text)} {t u : Ty} {n : Text} (h : t.same u)
    (hstruct : ∀ x, t ≠ .struct x) (hn : elementName names t = .ok n) : elementName names u = .ok n := by
  cases t <;> cases u <;> simp_all [Ty.same, elementName]

/-- Types are written as soon as what is behind their arrays is. -/
theorem nameOf_eq_ok {names : List (Int × Text)} {t : Ty} {n : Text} :
    nameOf names t = .ok n ↔ ∃ base, elementName names t.innermost = .ok base ∧ n = base ++ arraySuffix t := by
  rw [nameOf]
  cases elementName names t.innermost <;> simp [Except.map, eq_comm]

/-- What can be declared inside a function. -/
def Subject.IsLocal : Subject → Prop
  | .declared .variable _ _ | .declared .constant _ _ => True
  | _ => False

mutual

theorem isLocal_declaredIn (k : Constants) : ∀ s : Stmt, ∀ x ∈ declaredIn k s, x.IsLocal := by
  intro s x hx
  cases s with
  | letVar span d =>
    cases List.mem_singleton.mp hx
    trivial
  | const span d =>
    cases List.mem_singleton.mp hx
    trivial
  | multi span body => exact isLocal_declaredInAll k body x hx
  | «scoped» span body => exact isLocal_declaredIn k body x hx
  | loop span cond unroll body => exact isLocal_declaredIn k body x hx
  | conditional span cond body =>
    rw [declaredIn] at hx
    split at hx
    · exact isLocal_declaredIn k body x hx
    · cases hx
  | branch span isConst arms otherwise =>
    match isConst, arms with
    | true, arms =>
      rw [declaredIn] at hx
      split at hx
      · next n _ =>
        split at hx
        · exact isLocal_declaredInArm k n arms x hx
        · exact isLocal_declaredIn k otherwise x hx
      · cases hx
    | false, [] => cases hx
    | false, (c, s) :: arms =>
      rw [declaredIn] at hx
      rcases List.mem_append.mp hx with hx | hx
      · exact isLocal_declaredIn k s x hx
      · rcases List.mem_append.mp hx with hx | hx
        · exact isLocal_declaredInArms k arms x hx
        · exact isLocal_declaredIn k otherwise x hx
  | _ => cases hx

theorem isLocal_declaredInAll (k : Constants) : ∀ ss : List Stmt, ∀ x ∈ declaredInAll k ss, x.IsLocal
  | [], x, hx => by cases hx
  | s :: ss, x, hx => by
    rcases List.mem_append.mp hx with hx | hx
    · exact isLocal_declaredIn k s x hx
    · exact isLocal_declaredInAll k ss x hx

theorem isLocal_declaredInArm (k : Constants) :
    ∀ (n : Nat) (arms : List (Expr × Stmt)), ∀ x ∈ declaredInArm k n arms, x.IsLocal
  | _, [], x, hx => by cases hx
  | 0, (_, s) :: _, x, hx => isLocal_declaredIn k s x hx
  | n + 1, _ :: arms, x, hx => isLocal_declaredInArm k n arms x hx

theorem isLocal_declaredInArms (k : Constants) :
    ∀ arms : List (Expr × Stmt), ∀ x ∈ declaredInArms k arms, x.IsLocal
  | [], x, hx => by cases hx
  | (_, s) :: arms, x, hx => by
    rcases List.mem_append.mp hx with hx | hx
    · exact isLocal_declaredIn k s x hx
    · exact isLocal_declaredInArms k arms x hx

end

theorem struct_mem_subjects {c : Context} {entry : FunctionDecl} {id : Int} {identifier : Text} :
    .declared .struct id identifier ∈ subjects c entry ↔ ∃ d ∈ c.source.structs, d.id = id ∧ d.name = identifier := by
  have hglobal : .declared .struct id identifier ∈ globals c.source (reachable c.source entry) ↔
      ∃ d ∈ c.source.structs, d.id = id ∧ d.name = identifier := by
    simp [globals]
  have hfunction (f : FunctionDecl) :
      .declared .struct id identifier ∉ parameters f.head.params ++ declaredInAll c.source.constants f.body := by
    intro hmem
    rcases List.mem_append.mp hmem with hmem | hmem
    · obtain ⟨p, -, hp⟩ := List.mem_map.mp hmem
      cases hp
    · exact isLocal_declaredInAll _ _ _ hmem
  have hexchanged : .declared .struct id identifier ∉ exchanged entry := by
    unfold exchanged
    split <;> split <;> simp
  rw [subjects, List.mem_append, hglobal, List.mem_append, List.mem_flatMap, or_iff_left]
  rintro (⟨f, -, hmem⟩ | hmem)
  · exact hfunction f hmem
  · exact hexchanged hmem

namespace NamesApart

variable {c : Context} {entry : FunctionDecl} {σ : State} {given : List (Subject × Text)} {kind : Kind}

theorem mem_names (h : NamesApart c entry σ given) {id : Int} {name : Text} :
    (id, name) ∈ σ.names kind ↔ ∃ identifier, (.declared kind id identifier, name) ∈ given := by
  rw [h.names, List.mem_reverse, List.mem_filterMap]
  constructor
  · rintro ⟨⟨s, n⟩, hg, hentry⟩
    cases s with
    | declared k i identifier =>
      rw [Subject.entry?] at hentry
      split at hentry
      · next hk =>
        cases hentry
        exact ⟨identifier, hk ▸ hg⟩
      · cases hentry
    | _ => cases hentry
  · rintro ⟨identifier, hg⟩
    exact ⟨_, hg, if_pos rfl⟩

/-- What is looked up under one name has one number. -/
theorem lookup_inj (h : NamesApart c entry σ given) (hfew : given.length < UInt32.size) {i j : Int} {name : Text}
    (hi : (σ.names kind).lookup i = some name) (hj : (σ.names kind).lookup j = some name) : i = j := by
  obtain ⟨a, ha⟩ := h.mem_names.mp (mem_of_lookup hi)
  obtain ⟨b, hb⟩ := h.mem_names.mp (mem_of_lookup hj)
  cases List.inj_on_of_nodup_map (h.distinct hfew).1 ha hb rfl
  rfl

theorem structure_named (h : NamesApart c entry σ given) {d : StructDecl} (hd : d ∈ c.source.structs) :
    ∃ name, (σ.names .struct).lookup d.id = some name := by
  have hsubject : .declared .struct d.id d.name ∈ Glsl.subjects c entry :=
    struct_mem_subjects.mpr ⟨d, hd, rfl, rfl⟩
  rw [← h.subjects] at hsubject
  obtain ⟨g, hg, hs⟩ := List.mem_map.mp (List.mem_filter.mp hsubject).1
  have hmem : (d.id, g.2) ∈ σ.names .struct := h.mem_names.mpr ⟨d.name, hs ▸ hg⟩
  cases hlookup : (σ.names .struct).lookup d.id with
  | some name => exact ⟨name, rfl⟩
  | none => simpa using List.lookup_eq_none_iff.mp hlookup _ hmem

/-- Structures that have names are there. -/
theorem structure_of_lookup (h : NamesApart c entry σ given) {id : Int} {name : Text}
    (hid : (σ.names .struct).lookup id = some name) : ∃ d ∈ c.source.structs, d.id = id := by
  obtain ⟨identifier, hg⟩ := h.mem_names.mp (mem_of_lookup hid)
  have hsubject : .declared .struct id identifier ∈ Glsl.subjects c entry := by
    rw [← h.subjects]
    exact List.mem_filter.mpr ⟨List.mem_map_of_mem hg, rfl⟩
  obtain ⟨d, hd, hdid, -⟩ := struct_mem_subjects.mp hsubject
  exact ⟨d, hd, hdid⟩

end NamesApart

/-- What is behind the arrays of a type is no structure that the module does not declare. -/
def Grounded (r : Module) (t : Ty) : Prop := ∀ x, t.innermost = .struct x → x ∈ r.records

/-- Are all structures that are equal the same declaration? -/
def StructsApart (s : Specialization) : Prop :=
  ∀ d ∈ s.structs, ∀ e ∈ s.structs, (Ty.struct d.record).same (.struct e.record) → d.id = e.id

/-- Structures of different names are not equal. -/
theorem structsApart_of_nodup {s : Specialization} (h : (s.structs.map (·.name)).Nodup) : StructsApart s := by
  intro d hd e he hsame
  rw [Ty.same, Bool.and_eq_true_iff] at hsame
  have hname : d.name = e.name := beq_iff_eq.mp hsame.1
  rw [List.inj_on_of_nodup_map h hd he hname]

section

variable {settings : CheckSettings} {m r : Module} {c : Context} {entry : FunctionDecl} {σ : State}
  {given : List (Subject × Text)}

/-- Equal types that are no arrays have one name where no two structures are equal. -/
theorem elementName_inj (h : m.ChecksTo settings r) (hs : c.source.Founded r) (hnames : NamesApart c entry σ given)
    (hapart : StructsApart c.source) {t u : Ty} {a b : Text} (ht : ∀ x, t = .struct x → x ∈ r.records)
    (hu : ∀ x, u = .struct x → x ∈ r.records) (hsame : t.same u) (ha : elementName σ.structs t = .ok a)
    (hb : elementName σ.structs u = .ok b) : a = b := by
  cases t with
  | struct x =>
    cases u with
    | struct y =>
      rw [elementName_struct] at ha hb
      obtain ⟨d, hd, hdx⟩ := hnames.structure_of_lookup ha
      obtain ⟨e, he, hey⟩ := hnames.structure_of_lookup hb
      have hx : d.record = x := h.record_inj (hs.structure_of_mem h hd).1 (ht x rfl) hdx
      have hy : e.record = y := h.record_inj (hs.structure_of_mem h he).1 (hu y rfl) hey
      have hid := hapart d hd e he (by rwa [hx, hy])
      rw [← hdx, hid, hey, hb] at ha
      exact (Option.some.inj ha).symm
    | _ => cases hsame
  | _ =>
    have heq := elementName_of_same hsame (fun x hx => by cases hx) ha
    rw [hb] at heq
    exact (Except.ok.inj heq).symm

/-- Equal types have one name exactly if no two declared structures are equal. -/
theorem sameNames_iff (h : m.ChecksTo settings r) (hs : c.source.Founded r) (hnames : NamesApart c entry σ given)
    (hfew : given.length < UInt32.size) :
    (∀ t u n n', Grounded r t → Grounded r u → t.same u → nameOf σ.structs t = .ok n → nameOf σ.structs u = .ok n' →
      n = n') ↔ StructsApart c.source := by
  constructor
  · intro hone d hd e he hsame
    have hnamed {d : StructDecl} (hd : d ∈ c.source.structs) : ∃ name, (σ.names .struct).lookup d.id = some name ∧
        Grounded r (.struct d.record) ∧ nameOf σ.structs (.struct d.record) = .ok (name ++ []) := by
      obtain ⟨name, hname⟩ := hnames.structure_named hd
      refine ⟨name, hname, fun x hx => ?_, nameOf_eq_ok.mpr ⟨name, elementName_struct.mpr hname, rfl⟩⟩
      cases hx
      exact (hs.structure_of_mem h hd).1
    obtain ⟨a, ha, hground, hname⟩ := hnamed hd
    obtain ⟨b, hb, hground', hname'⟩ := hnamed he
    have heq := hone _ _ _ _ hground hground' hsame hname hname'
    rw [List.append_nil, List.append_nil] at heq
    subst heq
    exact hnames.lookup_inj hfew ha hb
  · intro hapart t u n n' ht hu hsame hn hn'
    obtain ⟨hinnermost, hsuffix⟩ := Ty.same_innermost hsame
    obtain ⟨a, ha, rfl⟩ := nameOf_eq_ok.mp hn
    obtain ⟨b, hb, rfl⟩ := nameOf_eq_ok.mp hn'
    rw [elementName_inj h hs hnames hapart ht hu hinnermost ha hb, hsuffix]

/-- In a shader for a checked module equal types have one name exactly if no two of its structures are equal. -/
theorem generate_sameNames {target : Settings} {text : Text} (h : m.ChecksTo settings r)
    (hrun : generate (some r) target = .ok text) :
    ∃ (source : Specialization) (entry : FunctionDecl) (lines : List Text) (σ : State) (given : List (Subject × Text)),
      Specialization.ofModule (some r) { reduceLoops := true, values := target.values } = .ok source ∧
      entryPoint ⟨target, source⟩ = .ok entry ∧ shaderLines entry ⟨target, source⟩ {} = .ok (lines, σ) ∧
      text = lines.flatMap (· ++ [Text.byte '\n']) ∧ NamesApart ⟨target, source⟩ entry σ given ∧
      (given.length < UInt32.size → ((∀ t u n n', Grounded r t → Grounded r u → t.same u →
        nameOf σ.structs t = .ok n → nameOf σ.structs u = .ok n' → n = n') ↔ StructsApart source)) := by
  obtain ⟨source, entry, lines, σ, hsource, hentry, hlines, htext⟩ := generate_ok hrun
  obtain ⟨given, hgives, hsubjects⟩ := shaderLines_gives hlines
  have hnames := namesApart_of_gives hgives hsubjects
  have hfounded : source.Founded r := Specialization.founded h rfl rfl hsource
  exact ⟨source, entry, lines, σ, given, hsource, hentry, hlines, htext, hnames, sameNames_iff h hfounded hnames⟩

end

end Glsl

end Shading
