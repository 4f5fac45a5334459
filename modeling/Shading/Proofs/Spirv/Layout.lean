import Mathlib.Data.List.Find
import Shading.Proofs.Spirv.Assembly
import Shading.Proofs.Spirv.Laying

/-! The layout of buffers: each structure and array in one says where its parts are under the layout of the first
buffer that uses it. -/
namespace Shading.Spirv

/-- The structures and arrays in a resource, with the layout of the resource. -/
def usesOf (source : Specialization) (v : External) : List (Layout × Ty) :=
  match v.type.denoted with
  | .uniform r => (Ty.struct r).parts.map (layoutOf source r .std140, ·)
  | .storage r => (Ty.struct r).parts.map (layoutOf source r .std430, ·)
  | _ => []

/-- The structures and arrays in the resources of a module. -/
def uses (source : Specialization) : List (Layout × Ty) := source.externals.flatMap (usesOf source)

/-- The layout of the first resource with such a type in it. -/
def firstLayout (us : List (Layout × Ty)) (t : Ty) : Option Layout := (us.find? fun u => u.2.same t).map (·.1)

/-- Is what the module says about a type, which is declared, what the layout says? -/
def LaidOut (pool : Pool) (l : Layout) (t : Ty) : Prop :=
  ∃ id, Pool.typeId t pool = .ok (id, pool) ∧ placings l id t = .ok (pool.builder.placingsOf id)

/-- The check of what a module says about a type. -/
def isLaidOut (pool : Pool) (l : Layout) (t : Ty) : Bool :=
  match Pool.typeId t pool with
  | .ok (id, _) => (placings l id t).toOption == some (pool.builder.placingsOf id)
  | .error _ => false

theorem LaidOut.isLaidOut {pool : Pool} {l : Layout} {t : Ty} (h : LaidOut pool l t) : isLaidOut pool l t := by
  obtain ⟨id, htype, hplacings⟩ := h
  simp [Spirv.isLaidOut, htype, hplacings, Except.toOption]

namespace Buffers

variable {s s' : Buffers} {l : Layout} {ps : List Ty} {us : List (Layout × Ty)}

/-- What holds once the types in some buffers say where their parts are. -/
structure Covers (s : Buffers) (us : List (Layout × Ty)) : Prop where
  tidy : s.Tidy
  closed : ∀ n, s.Closed n
  spelled : ∀ u ∈ us, u.2.isSpelled
  self : ∀ u ∈ us, u.2 ∈ u.2.parts
  all : ∀ u ∈ us, s.Placed u.2
  /-- the first type with a text decides -/
  first : ∀ id ∈ s.placed, ∃ u, s.pool.types.lookup (Pool.key u.2) = some id ∧
    us.find? (fun w => Pool.key w.2 == Pool.key u.2) = some u ∧
    placings u.1 id u.2 = .ok (s.pool.builder.placingsOf id)

theorem covers_start {start : Pool} (h : start.builder.placings = []) : Covers { pool := start } [] := by
  refine ⟨⟨List.forall_mem_nil _, ?_⟩, ?_, List.forall_mem_nil _, List.forall_mem_nil _, List.forall_mem_nil _,
    List.forall_mem_nil _⟩
  · intro id _
    rw [Builder.placingsOf, h]
    rfl
  · intro n t _ _ hplaced
    obtain ⟨id, hid, -⟩ := hplaced
    cases hid

theorem Covers.step (h : s.Covers us) (hlays : Lays l [] ps s s') (hdistinct : s'.pool.Distinct)
    (hspelled : ∀ t ∈ ps, t.isSpelled) (hparts : ∀ t ∈ ps, t ∈ t.parts ∧ ∀ u ∈ t.parts, u ∈ ps) :
    s'.Covers (us ++ ps.map (l, ·)) := by
  refine ⟨hlays.tidy h.tidy, fun n => hlays.closed hdistinct h.tidy hspelled hparts (h.closed n), ?_, ?_, ?_, ?_⟩
  · intro u hu
    rcases List.mem_append.mp hu with hu | hu
    · exact h.spelled u hu
    · obtain ⟨t, ht, rfl⟩ := List.mem_map.mp hu
      exact hspelled t ht
  · intro u hu
    rcases List.mem_append.mp hu with hu | hu
    · exact h.self u hu
    · obtain ⟨t, ht, rfl⟩ := List.mem_map.mp hu
      exact (hparts t ht).1
  · intro u hu
    rcases List.mem_append.mp hu with hu | hu
    · exact hlays.mono (h.all u hu)
    · obtain ⟨t, ht, rfl⟩ := List.mem_map.mp hu
      exact hlays.all t ht
  · intro id hid
    by_cases hold : id ∈ s.placed
    · obtain ⟨u, hlookup, hfirst, hplacings⟩ := h.first id hold
      have hkept := hlays.kept id hold
      rw [List.filter_nil, List.append_nil] at hkept
      refine ⟨u, hlays.lookup hlookup, ?_, hkept ▸ hplacings⟩
      rw [List.find?_append, hfirst]
      rfl
    · obtain ⟨t, ht, hlookup, hplacings⟩ := hlays.fresh id hid hold
      -- no type with that text was used before
      have hnone : us.find? (fun w => Pool.key w.2 == Pool.key t) = none := by
        apply List.find?_eq_none.mpr
        intro w hw hkey
        obtain ⟨id', hid', hlookup'⟩ := h.all w hw
        have hsame := hlays.lookup hlookup'
        rw [beq_iff_eq.mp hkey, hlookup] at hsame
        cases hsame
        exact hold hid'
      obtain ⟨u, hu⟩ : ∃ u, (ps.map (l, ·)).find? (fun w => Pool.key w.2 == Pool.key t) = some u := by
        apply Option.isSome_iff_exists.mp
        apply List.find?_isSome.mpr
        exact ⟨(l, t), List.mem_map_of_mem ht, beq_self_eq_true _⟩
      have hkey : Pool.key u.2 = Pool.key t := by
        have hfound := List.find?_some hu
        exact beq_iff_eq.mp hfound
      obtain ⟨t', ht', rfl⟩ := List.mem_map.mp (List.mem_of_find?_eq_some hu)
      have hstorable := isStorable_of_placings (hparts t ht).1 hplacings
      obtain ⟨hsame, -⟩ := Pool.same_of_key_eq hstorable (hspelled t ht) (hspelled t' ht') hkey.symm
      refine ⟨(l, t'), ?_, ?_, ?_⟩
      · rw [hkey]
        exact hlookup
      · rw [List.find?_append, hkey, hnone]
        exact hu
      · rw [← placings_congr l id hstorable hsame]
        exact hplacings

/-- Decorating a whole buffer. -/
theorem lays_declareBlock {decoration : UInt32} {r : Record Ty} (hdecoration : decoration ≠ Decoration.offset ∧
    decoration ≠ Decoration.arrayStride ∧ decoration ≠ Decoration.matrixStride)
    (h : declareBlock decoration l r s = .ok ((), s')) (hdistinct : s'.pool.Distinct) (htidy : s.Tidy)
    (hspelled : (Ty.struct r).isSpelled) (hclosed : ∀ n, s.Closed n) : Lays l [] (Ty.struct r).parts s s' := by
  obtain ⟨id, s₁, htype, hstep⟩ := bind_ok.mp h
  have hquiet := lays_typeId l htype
  have hdecorate : ∀ {s₂ : Buffers}, Lays l [] [] s s₂ → decorate l (.struct r) s₂ = .ok ((), s') →
      Lays l [] (Ty.struct r).parts s s' := by
    intro s₂ hquiet₂ hrun
    have hdistinct₂ := (Buffering.extends_decorate l _ _ _ _ hrun).distinct hdistinct
    have hclosed₂ := hquiet₂.closed_of_nothing hdistinct₂ htidy (hclosed (Pool.key (.struct r)).length)
    have hlays := lays_decorate l _ hrun hdistinct (hquiet₂.tidy htidy) hspelled (Nat.le_refl _) hclosed₂
    exact hquiet₂.trans hlays (List.forall_mem_nil _)
  obtain ⟨_, _, hget, hstep⟩ := bind_ok.mp hstep
  cases hget
  cases hblock : s₁.blocks.contains id with
  | true =>
    rw [hblock] at hstep
    exact hdecorate hquiet hstep
  | false =>
    rw [hblock] at hstep
    obtain ⟨_, s₂, hmodify, hstep⟩ := bind_ok.mp hstep
    cases hmodify
    obtain ⟨_, s₃, hsaid, hrun⟩ := bind_ok.mp hstep
    obtain ⟨pool, hbuild, rfl⟩ := Buffering.pooled_ok hsaid
    have hadds := Pooling.adds_build (Build.adds_decorate hdecoration id []) s₁.pool () pool hbuild
    have hlays : Lays l [] [] s₁ { pool, blocks := id :: s₁.blocks, placed := s₁.placed } := .of_adds l hadds rfl
    exact hdecorate (hquiet.trans hlays (List.forall_mem_nil _)) hrun

end Buffers

/-- A resource is used with one layout, and covered by what was said before and about it. -/
theorem lays_global {settings : Settings} {source : Specialization} {v : External} {s s' : Buffers} {g : Int × Place}
    (h : global settings source v s = .ok (g, s')) (hdistinct : s'.pool.Distinct) (hspelled : v.type.denoted.isSpelled)
    {us : List (Layout × Ty)} (hs : s.Covers us) : s'.Covers (us ++ usesOf source v) := by
  obtain ⟨storage, block, s₁, hresource, hblock, id, hdeclare⟩ := global_ok h
  obtain ⟨hadds, hplaced⟩ := adds_declareResource hdeclare
  have hdistinct₁ := (Pool.Extends.of_adds hadds).distinct hdistinct
  have hdeclared : ∀ {us' : List (Layout × Ty)}, s₁.Covers us' → s'.Covers us' := by
    intro us' hs₁
    have hcovers := hs₁.step (.of_adds .std140 hadds hplaced) hdistinct (List.forall_mem_nil _) (List.forall_mem_nil _)
    rwa [List.map_nil, List.append_nil] at hcovers
  apply hdeclared
  have hstruct : ∀ {l : Layout} {decoration : UInt32} {r : Record Ty}, (decoration ≠ Decoration.offset ∧
      decoration ≠ Decoration.arrayStride ∧ decoration ≠ Decoration.matrixStride) → (Ty.struct r).isSpelled →
      Buffers.declareBlock decoration l r s = .ok ((), s₁) → s₁.Covers (us ++ (Ty.struct r).parts.map (l, ·)) := by
    intro l decoration r hdecoration hr hrun
    have hlays := Buffers.lays_declareBlock hdecoration hrun hdistinct₁ hs.tidy hr hs.closed
    exact hs.step hlays hdistinct₁ (fun t ht => Ty.isSpelled_of_mem_parts hr ht)
      fun t ht => ⟨Ty.mem_parts_self ht, fun u hu => Ty.mem_parts_trans ht hu⟩
  unfold usesOf
  unfold resource? at hresource
  cases htype : v.type.denoted with
  | uniform r =>
    simp only [htype] at hresource hspelled ⊢
    cases hresource
    exact hstruct (by decide) hspelled hblock
  | storage r =>
    simp only [htype] at hresource hspelled ⊢
    cases hresource
    apply hstruct _ hspelled hblock
    split <;> decide
  | sampler d p depth =>
    simp only [htype] at hresource ⊢
    cases hresource
    cases hblock
    rw [List.append_nil]
    exact hs
  | _ =>
    simp only [htype] at hresource
    cases hresource

theorem covers_mapM {settings : Settings} {source : Specialization} {vs : List External} {s s' : Buffers}
    {gs : List (Int × Place)} (h : vs.mapM (global settings source) s = .ok (gs, s')) (hdistinct : s'.pool.Distinct)
    (hspelled : ∀ v ∈ vs, v.type.denoted.isSpelled) {us : List (Layout × Ty)} (hs : s.Covers us) :
    s'.Covers (us ++ vs.flatMap (usesOf source)) := by
  induction vs generalizing s us gs with
  | nil =>
    cases h
    rw [List.flatMap_nil, List.append_nil]
    exact hs
  | cons v vs ih =>
    rw [List.mapM_cons] at h
    obtain ⟨g, s₁, hglobal, hstep⟩ := bind_ok.mp h
    obtain ⟨gs', s₂, hrest, hlast⟩ := bind_ok.mp hstep
    cases hlast
    rw [List.forall_mem_cons] at hspelled
    have hdistinct₁ := (extends_mapM (extends_global settings source) _ _ _ _ hrest).distinct hdistinct
    have hcovers := ih hrest hspelled.2 (lays_global hglobal hdistinct₁ hspelled.1 hs)
    rwa [List.append_assoc, ← List.flatMap_cons] at hcovers

/-- A structure or an array that is declared keeps its number. -/
theorem typeId_of_lookup {p : Pool} {t : Ty} {id : UInt32} (ht : t ∈ t.parts)
    (h : p.types.lookup (Pool.key t) = some id) : Pool.typeId t p = .ok (id, p) := by
  have hdeclared : ∀ declare : Pooling UInt32, Pool.declaredType t declare p = .ok (id, p) := by
    intro declare
    refine bind_ok.mpr ⟨p, p, rfl, ?_⟩
    rw [h]
    rfl
  cases t with
  | array t n =>
    rw [Pool.typeId]
    exact hdeclared _
  | struct r =>
    rw [Pool.typeId]
    exact hdeclared _
  | _ => cases ht

/-- As long as there are enough numbers, no number is that of two types. -/
theorem Assembled.distinct {settings : Settings} {source : Specialization} {start pool : Pool} {buffers : Buffers}
    (h : Assembled settings source start buffers pool) (hlength : pool.builder.words.length < 2 ^ 32) :
    pool.Distinct := by
  obtain ⟨codes, hemits⟩ := h.all_emits
  obtain ⟨n, hgrows, hn⟩ := hemits.grows
  obtain ⟨new, hnew, hdrawn⟩ := hgrows.drawn
  have hsize := size_le_length_words pool.builder
  rw [h.types, List.append_nil] at hnew
  rw [Pool.Distinct, hnew]
  exact hdrawn.nodup (by omega)

/-- The structures and arrays in the resources of a module say where their parts are: under the layout of the first
resource with an equal type in it, whatever that of the resource at hand is. -/
theorem laidOut_firstLayout {m : Option Module} {settings : Settings} {words : List UInt32}
    (h : generate m settings = .ok words) (hlength : words.length < 2 ^ 32) :
    ∃ source pool, Specialization.ofModule m settings.lowerings = .ok source ∧ assemble m settings = .ok pool ∧
      pool.builder.words = words ∧
      ((∀ v ∈ source.externals, v.type.denoted.isSpelled) →
        ∀ u ∈ uses source, ∃ l, firstLayout (uses source) u.2 = some l ∧ LaidOut pool l u.2) := by
  obtain ⟨pool, hassemble, hwords⟩ := bind_eq_ok h
  cases hwords
  obtain ⟨source, start, buffers, hsource, hassembled⟩ := assemble_ok hassemble
  refine ⟨source, pool, hsource, hassemble, rfl, ?_⟩
  intro hspelled u hu
  obtain ⟨globals, hresources⟩ := hassembled.resources
  obtain ⟨codes, hemits⟩ := hassembled.emits
  obtain ⟨n, hgrows, -⟩ := hemits.grows
  have hdistinct := hgrows.distinct (hassembled.distinct hlength)
  have hcovers := covers_mapM hresources hdistinct hspelled (Buffers.covers_start hassembled.placings)
  obtain ⟨id, hid, hlookup⟩ := hcovers.all u hu
  obtain ⟨w, hlookup', hfirst, hplacings⟩ := hcovers.first id hid
  have hkey := hdistinct.eq_of_lookup hlookup' hlookup
  have hw := List.mem_of_find?_eq_some hfirst
  have hstorable := isStorable_of_placings (hcovers.self w hw) hplacings
  obtain ⟨hsame, -⟩ := Pool.same_of_key_eq hstorable (hcovers.spelled w hw) (hcovers.spelled u hu) hkey
  refine ⟨w.1, ?_, id, typeId_of_lookup (hcovers.self u hu) (hgrows.lookup _ id hlookup), ?_⟩
  · -- types with the text of the first one are those that are equal to it
    have hiff : ∀ x ∈ uses source, x.2.same u.2 = (Pool.key x.2 == Pool.key w.2) := by
      intro x hx
      rw [Bool.eq_iff_iff, beq_iff_eq]
      constructor
      · intro hxu
        rw [Pool.key_eq_of_same hxu, hkey]
      · intro hxw
        obtain ⟨-, hxstorable⟩ :=
          Pool.same_of_key_eq hstorable (hcovers.spelled w hw) (hcovers.spelled x hx) hxw.symm
        exact (Pool.same_of_key_eq hxstorable (hcovers.spelled x hx) (hcovers.spelled u hu) (hxw.trans hkey)).1
    have hfound : (uses source).find? (fun x => x.2.same u.2) = some w := by
      rw [← hfirst]
      exact List.find?_congr hiff
    rw [firstLayout, hfound]
    rfl
  · rw [← placings_congr w.1 id hstorable hsame, hplacings, Builder.placingsOf, Builder.placingsOf, hassembled.kept]

/-- A structure that is used by a uniform buffer and by a storage buffer. -/
def sharedText : Text := Text.join "\n" [
  "module;",
  "struct Data",
  "\x7b",
  "  values: array[f32, 4]",
  "\x7d",
  "external",
  "\x7b",
  "  [binding(0)] a: uniform[Data],",
  "  [binding(1)] b: storage[Data]",
  "\x7d",
  "[entry(frag)]",
  "fn main()",
  "\x7b",
  "\x7d"]

/-- What is read of the module for the two buffers: its size, whether its names are plain, how many types are used,
and whether each of them is laid out under the layout of its own buffer. -/
theorem sharedText_runs : ((do
    let source ← (Specialization.ofModule (checkedSource sharedText) (Settings.lowerings {})).toOption
    let pool ← (assemble (checkedSource sharedText) {}).toOption
    return (decide (pool.builder.words.length < 2 ^ 32), source.externals.all fun v => v.type.denoted.isSpelled,
      (uses source).length, (uses source).all fun u => isLaidOut pool u.1 u.2)) : Option (Bool × Bool × Nat × Bool)) =
    some (true, true, 4, false) := by
  decide +kernel

theorem shared_ok : ∃ source pool, Specialization.ofModule (checkedSource sharedText) (Settings.lowerings {}) = .ok source ∧
    assemble (checkedSource sharedText) {} = .ok pool ∧ pool.builder.words.length < 2 ^ 32 ∧
    (∀ v ∈ source.externals, v.type.denoted.isSpelled) ∧ (uses source).length = 4 ∧
    ∃ u ∈ uses source, isLaidOut pool u.1 u.2 = false := by
  have hrun := sharedText_runs
  cases hsource : Specialization.ofModule (checkedSource sharedText) (Settings.lowerings {}) with
  | error e =>
    rw [hsource] at hrun
    cases hrun
  | ok source =>
    cases hassemble : assemble (checkedSource sharedText) {} with
    | error e =>
      rw [hsource, hassemble] at hrun
      cases hrun
    | ok pool =>
      rw [hsource, hassemble] at hrun
      injection hrun with hrun
      simp only [Prod.mk.injEq, decide_eq_true_eq] at hrun
      obtain ⟨hlength, hnames, hcount, hnot⟩ := hrun
      obtain ⟨u, hu, hfalse⟩ := List.all_eq_false.mp hnot
      exact ⟨source, pool, rfl, rfl, hlength, List.all_eq_true.mp hnames, hcount, u, hu, by simpa using hfalse⟩

theorem laidOut_firstLayout_shared :
    ∃ words, generate (checkedSource sharedText) {} = .ok words ∧ words.length < 2 ^ 32 ∧
      ∃ source pool, Specialization.ofModule (checkedSource sharedText) (Settings.lowerings {}) = .ok source ∧
        assemble (checkedSource sharedText) {} = .ok pool ∧ pool.builder.words = words ∧ (uses source).length = 4 ∧
        ∀ u ∈ uses source, ∃ l, firstLayout (uses source) u.2 = some l ∧ LaidOut pool l u.2 := by
  obtain ⟨source, pool, hsource, hassemble, hlength, hnames, hcount, -⟩ := shared_ok
  have hwords : generate (checkedSource sharedText) {} = .ok pool.builder.words := by
    rw [generate, hassemble]
    rfl
  obtain ⟨source', pool', hsource', hassemble', hpool', hlaidOut⟩ := laidOut_firstLayout hwords hlength
  rw [hsource] at hsource'
  cases hsource'
  exact ⟨_, hwords, hlength, source, pool', hsource, hassemble', hpool', hcount, hlaidOut hnames⟩

/-- A resource with a layout of its own is not laid out under it if an earlier one has the same types in it. -/
theorem exists_not_laidOut : ¬ ∀ (m : Option Module) (settings : Settings) (source : Specialization) (pool : Pool),
    Specialization.ofModule m settings.lowerings = .ok source → assemble m settings = .ok pool →
    ∀ u ∈ uses source, LaidOut pool u.1 u.2 := by
  intro h
  obtain ⟨source, pool, hsource, hassemble, -, -, -, u, hu, hnot⟩ := shared_ok
  have hlaidOut := (h _ _ source pool hsource hassemble u hu).isLaidOut
  rw [hnot] at hlaidOut
  cases hlaidOut

end Shading.Spirv
