import Shading.Proofs.Spirv.Pool
import Shading.Proofs.Spirv.Part

/-! The types of buffers say once where their parts are: a type that says so already is left alone, with all that
is in it. -/
namespace Shading.Spirv

/-- Is something said about that type? -/
def Instruction.isAbout (id : UInt32) (i : Instruction) : Bool := i.operands.head? == some id

/-- What is said about where the parts of a type are. -/
def Builder.placingsOf (b : Builder) (id : UInt32) : List Instruction := b.placings.filter (·.isAbout id)

namespace Pool

variable {p q : Pool}

/-- No number is that of two types. -/
def Distinct (p : Pool) : Prop := (p.types.map (·.2)).Nodup

theorem Distinct.eq_of_lookup (h : p.Distinct) {k k' : Text} {id : UInt32} (hk : p.types.lookup k = some id)
    (hk' : p.types.lookup k' = some id) : k = k' := by
  have hmem : ∀ k, p.types.lookup k = some id → (k, id) ∈ p.types := by
    intro k hk
    obtain ⟨before, after, htypes, -⟩ := List.lookup_eq_some_iff.mp hk
    rw [htypes]
    exact List.mem_append_right _ List.mem_cons_self
  have hpair := List.inj_on_of_nodup_map h (hmem k hk) (hmem k' hk') rfl
  exact congrArg Prod.fst hpair

theorem Grows.distinct {n : Nat} {ids : List UInt32} (h : p.Grows q n ids) (hq : q.Distinct) : p.Distinct := by
  obtain ⟨new, hnew, -⟩ := h.drawn
  rw [Distinct, hnew, List.map_append] at hq
  exact hq.of_append_right

theorem Extends.distinct (h : p.Extends q) (hq : q.Distinct) : p.Distinct := by
  obtain ⟨n, hgrows, -⟩ := h.grows
  exact hgrows.distinct hq

end Pool

namespace Buffers

variable {s s' s₁ s₂ : Buffers} {l : Layout} {is js : List Instruction} {ps qs : List Ty} {t : Ty} {id : UInt32}
  {n : Nat}

/-- Does the type say where its parts are? -/
def Placed (s : Buffers) (t : Ty) : Prop := ∃ id ∈ s.placed, s.pool.types.lookup (Pool.key t) = some id

/-- One more annotation. -/
def annotated (s : Buffers) (i : Instruction) : Buffers :=
  { s with pool := { s.pool with builder := (Builder.annotate i s.pool.builder).2 } }

/-- Only types say where their parts are, and only those that are noted. -/
structure Tidy (s : Buffers) : Prop where
  known : ∀ id ∈ s.placed, ∃ k, s.pool.types.lookup k = some id
  bare : ∀ id, id ∉ s.placed → s.pool.builder.placingsOf id = []

/-- With a type, all that is in it says where its parts are. Types with longer texts may be in the making. -/
def Closed (s : Buffers) (n : Nat) : Prop :=
  ∀ t : Ty, t.isSpelled → (Pool.key t).length ≤ n → s.Placed t → ∀ u ∈ t.parts, s.Placed u

/-- Steps that say under a layout where the parts of some types are, of each that does not say so yet, and that
say some more about others. -/
structure Lays (l : Layout) (is : List Instruction) (ps : List Ty) (s s' : Buffers) : Prop where
  pool : s.pool.Extends s'.pool
  placed : ∀ id ∈ s.placed, id ∈ s'.placed
  kept : ∀ id ∈ s.placed,
    s'.pool.builder.placingsOf id = s.pool.builder.placingsOf id ++ is.filter (·.isAbout id)
  fresh : ∀ id ∈ s'.placed, id ∉ s.placed → ∃ t ∈ ps, s'.pool.types.lookup (Pool.key t) = some id ∧
    placings l id t = .ok (s'.pool.builder.placingsOf id)
  bare : ∀ id, id ∉ s'.placed → s'.pool.builder.placingsOf id = s.pool.builder.placingsOf id
  all : ∀ t ∈ ps, s'.Placed t

namespace Lays

theorem lookup (h : Lays l is ps s s') {k : Text} (hk : s.pool.types.lookup k = some id) :
    s'.pool.types.lookup k = some id := h.pool.lookup hk

theorem mono (h : Lays l is ps s s') (ht : s.Placed t) : s'.Placed t := by
  obtain ⟨id, hid, hlookup⟩ := ht
  exact ⟨id, h.placed id hid, h.lookup hlookup⟩

theorem tidy (h : Lays l is ps s s') (hs : s.Tidy) : s'.Tidy := by
  constructor
  · intro id hid
    by_cases hold : id ∈ s.placed
    · obtain ⟨k, hk⟩ := hs.known id hold
      exact ⟨k, h.lookup hk⟩
    · obtain ⟨t, -, hlookup, -⟩ := h.fresh id hid hold
      exact ⟨_, hlookup⟩
  · intro id hid
    rw [h.bare id hid]
    exact hs.bare id fun hold => hid (h.placed id hold)

theorem trans (h : Lays l is ps s s₁) (h' : Lays l js qs s₁ s₂)
    (hjs : ∀ j ∈ js, ∃ id ∈ s.placed, j.operands.head? = some id) : Lays l (is ++ js) (ps ++ qs) s s₂ := by
  refine ⟨h.pool.trans h'.pool, fun id hid => h'.placed id (h.placed id hid), ?_, ?_, ?_, ?_⟩
  · intro id hid
    rw [h'.kept id (h.placed id hid), h.kept id hid, List.filter_append, List.append_assoc]
  · intro id hid hnew
    by_cases hmiddle : id ∈ s₁.placed
    · obtain ⟨t, ht, hlookup, hplacings⟩ := h.fresh id hmiddle hnew
      -- what is said later is about types that were there before
      have hnone : js.filter (·.isAbout id) = [] := by
        apply List.filter_eq_nil_iff.mpr
        intro j hj habout
        obtain ⟨id', hid', htarget⟩ := hjs j hj
        rw [Instruction.isAbout, htarget, beq_iff_eq, Option.some.injEq] at habout
        exact hnew (habout ▸ hid')
      have hkept := h'.kept id hmiddle
      rw [hnone, List.append_nil] at hkept
      exact ⟨t, List.mem_append_left _ ht, h'.lookup hlookup, hkept ▸ hplacings⟩
    · obtain ⟨t, ht, hfresh⟩ := h'.fresh id hid hmiddle
      exact ⟨t, List.mem_append_right _ ht, hfresh⟩
  · intro id hid
    rw [h'.bare id hid]
    exact h.bare id fun hmiddle => hid (h'.placed id hmiddle)
  · intro t ht
    rcases List.mem_append.mp ht with ht | ht
    · exact h'.mono (h.all t ht)
    · exact h'.all t ht

/-- Steps that say nothing about where parts are. -/
theorem of_adds (l : Layout) (h : s.pool.Adds s'.pool []) (hplaced : s'.placed = s.placed) : Lays l [] [] s s' := by
  have hsame : ∀ id, s'.pool.builder.placingsOf id = s.pool.builder.placingsOf id := by
    intro id
    rw [Builder.placingsOf, h.placings]
    rfl
  refine ⟨.of_adds h, fun id hid => hplaced ▸ hid, ?_, ?_, fun id _ => hsame id, List.forall_mem_nil _⟩
  · intro id _
    rw [hsame, List.filter_nil, List.append_nil]
  · intro id hid hnew
    exact absurd (hplaced ▸ hid) hnew

theorem annotate_other (s : Buffers) (l : Layout) {i : Instruction} (hbound : i.opcode.isBound = false)
    (hplacing : i.isPlacing = false) : Lays l [] [] s (s.annotated i) :=
  .of_adds l (Pooling.adds_build (Build.adds_annotate hbound hplacing) s.pool () _ rfl) rfl

/-- Nothing is done for types that say where their parts are. -/
theorem of_all (l : Layout) (h : ∀ t ∈ ps, s.Placed t) : Lays l [] ps s s := by
  have hnothing := of_adds (s := s) l (.refl _) rfl
  exact ⟨hnothing.pool, hnothing.placed, hnothing.kept, fun id hid hnew => absurd hid hnew, hnothing.bare, h⟩

/-- Something more is said about a type that is noted. -/
theorem annotate (l : Layout) {i : Instruction} (hbound : i.opcode.isBound = false) (hplacing : i.isPlacing)
    (hid : id ∈ s.placed) (htarget : i.operands.head? = some id) :
    Lays l [i] [] s (s.annotated i) := by
  have hsaid : ∀ id, (Builder.annotate i s.pool.builder).2.placingsOf id =
      s.pool.builder.placingsOf id ++ [i].filter (·.isAbout id) := by
    intro id
    show ((s.pool.builder.annotations.push i).toList.filter _).filter _ = _
    rw [Array.toList_push, List.filter_append, List.filter_append, List.filter_cons_of_pos hplacing]
    rfl
  refine ⟨.annotate s.pool hbound, fun id hid => hid, fun id _ => hsaid id, ?_, ?_, List.forall_mem_nil _⟩
  · intro id' hid' hnew
    exact absurd hid' hnew
  · intro id' hid'
    have hother : i.isAbout id' = false := by
      rw [Instruction.isAbout, htarget, beq_eq_false_iff_ne]
      rintro heq
      cases heq
      exact hid' hid
    show (Builder.annotate i s.pool.builder).2.placingsOf id' = _
    rw [hsaid, List.filter_singleton, hother]
    exact List.append_nil _

/-- If a type says where its parts are, so does all that is in it, before and after. -/
theorem closed (h : Lays l is ps s s') (hdistinct : s'.pool.Distinct) (htidy : s.Tidy)
    (hspelled : ∀ t ∈ ps, t.isSpelled) (hparts : ∀ t ∈ ps, t ∈ t.parts ∧ ∀ u ∈ t.parts, u ∈ ps) (hclosed : s.Closed n) :
    s'.Closed n := by
  intro t ht hlength hplaced u hu
  obtain ⟨id, hid, hlookup⟩ := hplaced
  by_cases hold : id ∈ s.placed
  · obtain ⟨k, hk⟩ := htidy.known id hold
    obtain rfl := hdistinct.eq_of_lookup (h.lookup hk) hlookup
    exact h.mono (hclosed t ht hlength ⟨id, hold, hk⟩ u hu)
  · obtain ⟨t', ht', hlookup', hplacings⟩ := h.fresh id hid hold
    have hkey := hdistinct.eq_of_lookup hlookup' hlookup
    have hstorable := isStorable_of_placings (hparts t' ht').1 hplacings
    obtain ⟨hsame, -⟩ := Pool.same_of_key_eq hstorable (hspelled t' ht') ht hkey
    have hmem : Pool.key u ∈ t.parts.map Pool.key := List.mem_map_of_mem hu
    rw [← Pool.keys_parts_congr hsame] at hmem
    obtain ⟨u', hu', hkey'⟩ := List.mem_map.mp hmem
    obtain ⟨id', hid', hlookup''⟩ := h.all u' ((hparts t' ht').2 u' hu')
    exact ⟨id', hid', hkey' ▸ hlookup''⟩

/-- A type that is noted and then says where its parts are, and what is in it. -/
theorem mark (h : Lays l is ps { s with placed := id :: s.placed } s') (htidy : s.Tidy)
    (hlookup : s.pool.types.lookup (Pool.key t) = some id) (hnew : id ∉ s.placed)
    (htargets : ∀ i ∈ is, i.operands.head? = some id) (hplacings : placings l id t = .ok is) :
    Lays l [] (t :: ps) s s' := by
  have hadded : s'.pool.builder.placingsOf id = is := by
    have hkept := h.kept id List.mem_cons_self
    rw [show Builder.placingsOf _ id = [] from htidy.bare id hnew, List.nil_append] at hkept
    rw [hkept]
    apply List.filter_eq_self.mpr
    intro i hi
    rw [Instruction.isAbout, htargets i hi]
    exact beq_self_eq_true _
  refine ⟨h.pool, fun id' hid' => h.placed id' (List.mem_cons_of_mem _ hid'), ?_, ?_, h.bare, ?_⟩
  · intro id' hid'
    have hnone : is.filter (·.isAbout id') = [] := by
      apply List.filter_eq_nil_iff.mpr
      intro i hi habout
      rw [Instruction.isAbout, htargets i hi, beq_iff_eq, Option.some.injEq] at habout
      exact hnew (habout ▸ hid')
    rw [h.kept id' (List.mem_cons_of_mem _ hid'), hnone]
    rfl
  · intro id' hid' hold
    by_cases hself : id' = id
    · rw [hself]
      exact ⟨t, List.mem_cons_self, h.lookup hlookup, hadded ▸ hplacings⟩
    · obtain ⟨u, hu, hfresh⟩ := h.fresh id' hid' (List.not_mem_cons_of_ne_of_not_mem hself hold)
      exact ⟨u, List.mem_cons_of_mem _ hu, hfresh⟩
  · intro u hu
    rcases List.mem_cons.mp hu with rfl | hu
    · exact ⟨id, h.placed id List.mem_cons_self, h.lookup hlookup⟩
    · exact h.all u hu

end Lays

theorem Tidy.mark (hs : s.Tidy) {k : Text} (hlookup : s.pool.types.lookup k = some id) :
    Tidy { s with placed := id :: s.placed } := by
  constructor
  · intro id' hid'
    rcases List.mem_cons.mp hid' with rfl | hid'
    · exact ⟨k, hlookup⟩
    · exact hs.known id' hid'
  · intro id' hid'
    exact hs.bare id' fun hold => hid' (List.mem_cons_of_mem _ hold)

/-- A type that is in the making is longer than all that is in it. -/
theorem Closed.mark (hs : s.Closed n) (hdistinct : s.pool.Distinct)
    (hlookup : s.pool.types.lookup (Pool.key t) = some id) {m : Nat} (hm : m < (Pool.key t).length) (hmn : m ≤ n) :
    Closed { s with placed := id :: s.placed } m := by
  intro u hu hlength hplaced v hv
  obtain ⟨id', hid', hlookup'⟩ := hplaced
  rcases List.mem_cons.mp hid' with rfl | hid'
  · have hkey := hdistinct.eq_of_lookup hlookup hlookup'
    rw [← hkey] at hlength
    omega
  · obtain ⟨id'', hid'', hv⟩ := hs u hu (Nat.le_trans hlength hmn) ⟨id', hid', hlookup'⟩ v hv
    exact ⟨id'', List.mem_cons_of_mem _ hid'', hv⟩

theorem once_ok {code : Buffering Unit} (h : once id code s = .ok ((), s')) :
    (id ∈ s.placed ∧ s' = s) ∨ (id ∉ s.placed ∧ code { s with placed := id :: s.placed } = .ok ((), s')) := by
  obtain ⟨_, _, hget, h⟩ := bind_ok.mp h
  cases hget
  by_cases hplaced : id ∈ s.placed
  · rw [List.contains_iff_mem.mpr hplaced] at h
    cases h
    exact .inl ⟨hplaced, rfl⟩
  · rw [show s.placed.contains id = false by simpa using hplaced] at h
    obtain ⟨_, _, hmark, h⟩ := bind_ok.mp h
    cases hmark
    exact .inr ⟨hplaced, h⟩

theorem liftM_ok {α : Type} {x : Except FormError α} {a : α} (h : (liftM x : Buffering α) s = .ok (a, s')) :
    x = .ok a ∧ s' = s := by
  cases x with
  | error e => cases h
  | ok b =>
    cases h
    exact ⟨rfl, rfl⟩

theorem lays_typeId {id : UInt32} (l : Layout) (h : pooled (Pool.typeId t) s = .ok (id, s')) :
    Lays l [] [] s s' := by
  obtain ⟨pool, hpool, rfl⟩ := Buffering.pooled_ok h
  exact .of_adds l (Pooling.adds_typeId t _ _ _ hpool) rfl

/-- The number of a structure or an array is noted in the table of types. -/
theorem lookup_typeId (ht : t ∈ t.parts) (h : pooled (Pool.typeId t) s = .ok (id, s')) :
    s'.pool.types.lookup (Pool.key t) = some id := by
  obtain ⟨pool, hpool, rfl⟩ := Buffering.pooled_ok h
  cases t with
  | array t n =>
    rw [Pool.typeId] at hpool
    exact Pooling.lookup_declaredType hpool
  | struct r =>
    rw [Pool.typeId] at hpool
    exact Pooling.lookup_declaredType hpool
  | _ => cases ht

theorem lays_decorateColumns {member : UInt32} (hid : id ∈ s.placed)
    (h : decorateColumns l id member t s = .ok ((), s')) :
    ∃ is, columnPlacings l id member t = .ok is ∧ (∀ i ∈ is, i.operands.head? = some id) ∧ Lays l is [] s s' := by
  unfold decorateColumns at h
  unfold columnPlacings
  cases hinner : t.innermost with
  | matrix c rows p =>
    simp only [hinner] at h ⊢
    obtain ⟨stride, s₁, hlift, hstep⟩ := bind_ok.mp h
    obtain ⟨hstride, rfl⟩ := liftM_ok hlift
    cases hstep
    rw [hstride]
    refine ⟨_, rfl, ?_, ?_⟩
    · intro i hi
      rw [List.mem_singleton.mp hi]
      rfl
    · have hmajor := Lays.annotate_other s₁ l (i := ⟨.opMemberDecorate, [id, member, Decoration.colMajor]⟩) rfl rfl
      apply hmajor.trans (.annotate l rfl rfl hid rfl)
      intro i hi
      rw [List.mem_singleton.mp hi]
      exact ⟨id, hid, rfl⟩
  | _ =>
    simp only [hinner] at h ⊢
    cases h
    exact ⟨[], rfl, List.forall_mem_nil _, .of_adds l (.refl _) rfl⟩

theorem Lays.closed_of_nothing (h : Lays l is [] s s') (hdistinct : s'.pool.Distinct) (htidy : s.Tidy)
    (hclosed : s.Closed n) : s'.Closed n :=
  h.closed hdistinct htidy (List.forall_mem_nil _) (List.forall_mem_nil _) hclosed

/-- Decorating a structure or an array: nothing is done if it says where its parts are, and otherwise it is noted
before anything else. -/
theorem lays_part {code : UInt32 → Buffering Unit} (ht : t.parts = t :: ps)
    (h : (pooled (Pool.typeId t) >>= fun id => once id (code id)) s = .ok ((), s')) (hdistinct : s'.pool.Distinct)
    (htidy : s.Tidy) (hspelled : t.isSpelled) (hlength : (Pool.key t).length ≤ n) (hclosed : s.Closed n)
    (hextends : ∀ id, Buffering.Extends (code id))
    (hcode : ∀ id s₁, s₁.Tidy → s₁.Closed ((Pool.key t).length - 1) → id ∈ s₁.placed → code id s₁ = .ok ((), s') →
      ∃ is, placings l id t = .ok is ∧ (∀ i ∈ is, i.operands.head? = some id) ∧ Lays l is ps s₁ s') :
    Lays l [] t.parts s s' := by
  have hself : t ∈ t.parts := by
    rw [ht]
    exact List.mem_cons_self
  obtain ⟨id, s₁, htype, hstep⟩ := bind_ok.mp h
  have hquiet := lays_typeId l htype
  have hlookup := lookup_typeId hself htype
  rcases once_ok hstep with ⟨hplaced, rfl⟩ | ⟨hnew, hrun⟩
  · have hclosed₁ := hquiet.closed_of_nothing hdistinct htidy hclosed
    exact hquiet.trans (.of_all l (hclosed₁ t hspelled hlength ⟨id, hplaced, hlookup⟩)) (List.forall_mem_nil _)
  · have htidy₁ := hquiet.tidy htidy
    have hdistinct₁ : s₁.pool.Distinct := (hextends id _ _ _ hrun).distinct hdistinct
    have hclosed₁ := hquiet.closed_of_nothing hdistinct₁ htidy hclosed
    have hpos := Pool.length_key_pos hself
    have hclosed₂ := hclosed₁.mark hdistinct₁ hlookup (Nat.sub_lt hpos Nat.one_pos) (by omega)
    obtain ⟨is, hplacings, htargets, hlays⟩ := hcode id _ (htidy₁.mark hlookup) hclosed₂ List.mem_cons_self hrun
    rw [ht]
    exact hquiet.trans (hlays.mark htidy₁ hlookup hnew htargets hplacings) (List.forall_mem_nil _)

mutual

theorem lays_decorate (l : Layout) : ∀ (t : Ty) {s s' : Buffers} {n : Nat}, decorate l t s = .ok ((), s') →
    s'.pool.Distinct → s.Tidy → t.isSpelled → (Pool.key t).length ≤ n → s.Closed n → Lays l [] t.parts s s' := by
  intro t s s' n h hdistinct htidy hspelled hlength hclosed
  cases t with
  | struct r =>
    rw [decorate] at h
    have hmembers : Ty.areSpelled r.members := by
      simp only [Ty.isSpelled, Bool.and_eq_true] at hspelled
      exact hspelled.2
    apply lays_part rfl h hdistinct htidy hspelled hlength hclosed
    · intro id
      apply (Buffering.extends_liftM _).bind
      intro placement
      exact Buffering.extends_decorateMembers l id 0 placement.offsets r.members
    · intro id s₁ htidy₁ hclosed₁ hid hcode
      obtain ⟨placement, s₂, hlift, hrun⟩ := bind_ok.mp hcode
      obtain ⟨hplacement, rfl⟩ := liftM_ok hlift
      -- the members have shorter texts than the structure
      have hshorter : ∀ m ∈ r.members, (Pool.key m.2).length ≤ (Pool.key (.struct r)).length - 1 := by
        intro m hm
        have hlt := Pool.length_key_struct hm
        omega
      obtain ⟨is, his, htargets, hlays⟩ := lays_decorateMembers l id r.members hrun (length_offsets hplacement)
        hdistinct htidy₁ hmembers hshorter hclosed₁ hid
      refine ⟨is, ?_, htargets, hlays⟩
      rw [placings, hplacement]
      exact his
  | array t m =>
    rw [decorate] at h
    apply lays_part rfl h hdistinct htidy hspelled hlength hclosed
    · intro id
      apply (Buffering.extends_liftM _).bind
      intro stride
      exact (Buffering.extends_annotate rfl).bind fun _ => Buffering.extends_decorate l t
    · intro id s₁ htidy₁ hclosed₁ hid hcode
      obtain ⟨stride, s₂, hlift, hsaid⟩ := bind_ok.mp hcode
      obtain ⟨hstride, rfl⟩ := liftM_ok hlift
      obtain ⟨_, s₃, hannotate, helement⟩ := bind_ok.mp hsaid
      cases hannotate
      have hlays : Lays l [⟨.opDecorate, [id, Decoration.arrayStride, stride]⟩] [] s₂ _ := .annotate l rfl rfl hid rfl
      have hdistinct₃ := (Buffering.extends_decorate l t _ _ _ helement).distinct hdistinct
      have hclosed₃ := hlays.closed_of_nothing hdistinct₃ htidy₁ hclosed₁
      have hshorter := Pool.length_key_array t m
      have hrest := lays_decorate l t helement hdistinct (hlays.tidy htidy₁) hspelled (by omega) hclosed₃
      refine ⟨_, ?_, ?_, hlays.trans hrest (List.forall_mem_nil _)⟩
      · rw [placings, hstride]
        rfl
      · intro i hi
        rw [List.mem_singleton.mp hi]
        rfl
  | _ =>
    simp only [decorate] at h
    cases h
    exact .of_all l (List.forall_mem_nil _)

theorem lays_decorateMembers (l : Layout) (id : UInt32) : ∀ (members : List (Text × Ty)) {member : UInt32}
    {offsets : List UInt32} {s s' : Buffers} {n : Nat}, decorateMembers l id member offsets members s = .ok ((), s') →
    offsets.length = members.length → s'.pool.Distinct → s.Tidy → Ty.areSpelled members →
    (∀ m ∈ members, (Pool.key m.2).length ≤ n) → s.Closed n → id ∈ s.placed →
    ∃ is, memberPlacings l id member (members.zip offsets) = .ok is ∧ (∀ i ∈ is, i.operands.head? = some id) ∧
      Lays l is (Ty.memberParts members) s s' := by
  intro members member offsets s s' n h hlength hdistinct htidy hspelled hlengths hclosed hid
  cases members with
  | nil =>
    rw [decorateMembers] at h
    cases h
    exact ⟨[], rfl, List.forall_mem_nil _, .of_all l (List.forall_mem_nil _)⟩
  | cons m members =>
    obtain ⟨name, t⟩ := m
    obtain ⟨offset, offsets, rfl⟩ := List.exists_cons_of_length_eq_add_one hlength
    rw [decorateMembers] at h
    obtain ⟨_, s₁, hannotate, hstep₁⟩ := bind_ok.mp h
    obtain ⟨_, s₂, hdecorateColumns, hstep₂⟩ := bind_ok.mp hstep₁
    obtain ⟨_, s₃, hdecorate, hrun⟩ := bind_ok.mp hstep₂
    cases hannotate
    have hoffset : Lays l [⟨.opMemberDecorate, [id, member, Decoration.offset, offset]⟩] [] s _ :=
      .annotate l rfl rfl hid rfl
    obtain ⟨columns, hcolumnPlacings, hcolumnTargets, hcolumns⟩ :=
      lays_decorateColumns (hoffset.placed id hid) hdecorateColumns
    have hsaid := hoffset.trans hcolumns fun i hi => ⟨id, hid, hcolumnTargets i hi⟩
    have hid₂ := hsaid.placed id hid
    have htidy₂ := hsaid.tidy htidy
    have hdistinct₃ := (Buffering.extends_decorateMembers l id _ _ members _ _ _ hrun).distinct hdistinct
    have hdistinct₂ := (Buffering.extends_decorate l t _ _ _ hdecorate).distinct hdistinct₃
    have hclosed₂ := hsaid.closed_of_nothing hdistinct₂ htidy hclosed
    simp only [Ty.areSpelled, Bool.and_eq_true] at hspelled
    rw [List.forall_mem_cons] at hlengths
    have htype := lays_decorate l t hdecorate hdistinct₃ htidy₂ hspelled.1.2 hlengths.1 hclosed₂
    have hclosed₃ := htype.closed hdistinct₃ htidy₂ (fun u hu => Ty.isSpelled_of_mem_parts hspelled.1.2 hu)
      (fun u hu => ⟨Ty.mem_parts_self hu, fun v hv => Ty.mem_parts_trans hu hv⟩) hclosed₂
    obtain ⟨rest, hrestPlacings, hrestTargets, hrest⟩ := lays_decorateMembers l id members hrun (Nat.succ.inj hlength)
      hdistinct (htype.tidy htidy₂) hspelled.2 hlengths.2 hclosed₃ (htype.placed id hid₂)
    change memberPlacings l id (member + 1) (members.zip offsets) = .ok rest at hrestPlacings
    have hall := (hsaid.trans htype (List.forall_mem_nil _)).trans hrest fun i hi => ⟨id, hid, hrestTargets i hi⟩
    rw [List.append_nil] at hall
    refine ⟨_, ?_, ?_, hall⟩
    · simp only [List.zip_cons_cons, memberPlacings, hcolumnPlacings, hrestPlacings]
      rfl
    · intro i hi
      rcases List.mem_cons.mp hi with rfl | hi
      · rfl
      · rcases List.mem_append.mp hi with hi | hi
        · exact hcolumnTargets i hi
        · exact hrestTargets i hi

end

end Buffers

end Shading.Spirv
