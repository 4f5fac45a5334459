import Shading.Proofs.Spirv.Growth
import Shading.Spirv.Buffer

/-! What it takes to declare types, constants and the blocks of resources. -/
namespace Shading.Spirv.Pooling

open Pool

/-- A type that is declared already keeps its number, and any other is declared. -/
theorem declaredType_ok {t : Ty} {declare : Pooling UInt32} {p p' : Pool} {id : UInt32}
    (h : declaredType t declare p = .ok (id, p')) :
    (p.types.lookup (key t) = some id ∧ p' = p) ∨
      (p.types.lookup (key t) = none ∧
        ∃ q, declare p = .ok (id, q) ∧ p' = { q with types := (key t, id) :: q.types }) := by
  obtain ⟨_, _, hget, h⟩ := bind_ok.mp h
  cases hget
  cases hlookup : p.types.lookup (key t) with
  | some id' =>
    rw [hlookup] at h
    cases h
    exact .inl ⟨rfl, rfl⟩
  | none =>
    rw [hlookup] at h
    obtain ⟨id', q, hdeclare, hq⟩ := bind_ok.mp h
    cases hq
    exact .inr ⟨rfl, q, hdeclare, rfl⟩

theorem lookup_declaredType {t : Ty} {declare : Pooling UInt32} {p p' : Pool} {id : UInt32}
    (h : declaredType t declare p = .ok (id, p')) : p'.types.lookup (key t) = some id := by
  obtain ⟨hlookup, rfl⟩ | ⟨-, q, -, rfl⟩ := declaredType_ok h
  · exact hlookup
  · exact List.lookup_cons_self

theorem adds_declaredType {t : Ty} {declare : Pooling UInt32} (h : Declares declare) : Adds (declaredType t declare) := by
  intro p id p' hp
  obtain ⟨-, rfl⟩ | ⟨hlookup, q, hdeclare, rfl⟩ := declaredType_ok hp
  · exact .refl p'
  · obtain ⟨⟨n, hgrows, hsize⟩, hfunctions, hplacings⟩ := h p id q hdeclare
    obtain ⟨new, hnew, hdrawn⟩ := hgrows.drawn
    refine ⟨⟨n, ⟨hgrows.next, hgrows.outside, ?_, (key t, id) :: new, ?_, hdrawn⟩, hsize⟩, hfunctions, hplacings⟩
    · intro k i hk
      have hne : k ≠ key t := by
        rintro rfl
        rw [hlookup] at hk
        cases hk
      show List.lookup k ((key t, id) :: q.types) = some i
      rw [List.lookup_cons, beq_false_of_ne hne]
      exact hgrows.lookup k i hk
    · show (key t, id) :: q.types = _
      rw [hnew]
      rfl

theorem adds_voidId : Adds voidId := adds_declaredType (declares_build (Build.numbers_type rfl _))

theorem adds_primitiveId (q : Primitive) : Adds (primitiveId q) := by
  apply adds_declaredType
  cases q with
  | bool => exact declares_build (Build.numbers_type rfl _)
  | i32 => exact declares_build (Build.numbers_type rfl _)
  | u32 => exact declares_build (Build.numbers_type rfl _)
  | f32 => exact declares_build (Build.numbers_type rfl _)
  | f64 => exact Declares.bind (adds_build (Build.adds_capability _)) fun _ => declares_build (Build.numbers_type rfl _)
  | reserved =>
    intro p id p' h
    cases h

theorem adds_vectorId (n : UInt32) (q : Primitive) : Adds (vectorId n q) :=
  adds_declaredType (.bind (adds_primitiveId q) fun _ => declares_build (Build.numbers_type rfl _))

theorem adds_matrixId (c r : UInt32) (q : Primitive) : Adds (matrixId c r q) :=
  adds_declaredType (.bind (adds_vectorId r q) fun _ => declares_build (Build.numbers_type rfl _))

theorem adds_samplerId (d : ImageDim) (q : Primitive) (depth : Bool) : Adds (samplerId d q depth) := by
  apply adds_declaredType
  have hlast : ∀ sampled : UInt32, Declares (do
      let image ← build (Builder.typeImage sampled (dimension d) depth)
      build (Builder.typeSampledImage image)) := by
    intro sampled
    apply Declares.bind (declares_build (Build.numbers_type rfl _)).adds
    intro image
    exact declares_build (Build.numbers_type rfl _)
  apply Declares.bind (adds_primitiveId q)
  intro sampled
  split
  · exact Declares.bind (adds_build (Build.adds_capability _)) fun _ => hlast sampled
  · exact hlast sampled

theorem adds_declaredConstant {v : Value} {declare : Pooling UInt32} (h : Declares declare) :
    Adds (declaredConstant v declare) := by
  apply adds_get.bind
  intro p
  split
  · exact adds_pure _
  · apply h.adds.bind
    intro id
    refine Adds.bind (adds_modify ?_ ?_) fun _ => adds_pure id
    · exact fun _ => rfl
    · exact fun _ => rfl

theorem adds_valueTypeId (v : Value) : Adds (valueTypeId v) := by
  unfold valueTypeId
  split
  · exact adds_primitiveId _
  · exact adds_vectorId _ _
  · exact adds_matrixId _ _ _
  · exact adds_throw _

/-- A constant whose type is declared first. -/
theorem adds_constantOf {v : Value} {op : Opcode} (h : op.isBound = false) {type : Pooling UInt32} (htype : Adds type)
    {operands : Pooling (List UInt32)} (hoperands : Adds operands) :
    Adds (declaredConstant v do
      let type ← type
      build (Builder.constantOf op type (← operands))) := by
  apply adds_declaredConstant
  apply Declares.bind htype
  intro type
  apply Declares.bind hoperands
  intro operands
  exact declares_build (Build.numbers_constantOf h _ _)

mutual

theorem adds_constantId : ∀ v : Value, Adds (constantId v)
  | .absent => by
    rw [constantId]
    exact adds_throw _
  | .bool b => by
    rw [constantId]
    apply adds_declaredConstant
    apply Declares.bind (adds_primitiveId _)
    intro type
    cases b <;> exact declares_build (Build.numbers_constantOf rfl _ _)
  | .i32 n => by
    rw [constantId]
    apply adds_declaredConstant
    exact Declares.bind (adds_primitiveId _) fun _ => declares_build (Build.numbers_constantOf rfl _ _)
  | .u32 n => by
    rw [constantId]
    apply adds_declaredConstant
    exact Declares.bind (adds_primitiveId _) fun _ => declares_build (Build.numbers_constantOf rfl _ _)
  | .f32 x => by
    rw [constantId]
    apply adds_declaredConstant
    exact Declares.bind (adds_primitiveId _) fun _ => declares_build (Build.numbers_constantOf rfl _ _)
  | .f64 x => by
    rw [constantId]
    apply adds_declaredConstant
    exact Declares.bind (adds_primitiveId _) fun _ => declares_build (Build.numbers_constantOf rfl _ _)
  | .vector cs => by
    rw [constantId]
    exact adds_constantOf rfl (adds_valueTypeId _) (adds_constantIds cs)
  | .matrix cols => by
    rw [constantId]
    exact adds_constantOf rfl (adds_valueTypeId _) (adds_columnIds cols)

theorem adds_constantIds : ∀ vs : List Value, Adds (constantIds vs)
  | [] => by
    rw [constantIds]
    exact adds_pure _
  | v :: vs => by
    rw [constantIds]
    apply (adds_constantId v).bind
    intro id
    exact (adds_constantIds vs).bind fun _ => adds_pure _

theorem adds_columnIds : ∀ cols : List (List Value), Adds (columnIds cols)
  | [] => by
    rw [columnIds]
    exact adds_pure _
  | c :: cols => by
    rw [columnIds]
    apply (adds_constantOf rfl (adds_valueTypeId _) (adds_constantIds c)).bind
    intro id
    exact (adds_columnIds cols).bind fun _ => adds_pure _

end

theorem adds_nameMembers (id : UInt32) (name : Text) (members : List Text) : Adds (nameMembers id name members) := by
  apply (adds_build (Build.adds_debugName rfl)).bind
  intro _
  generalize members.zipIdx = indexed
  induction indexed with
  | nil => exact adds_pure ()
  | cons m indexed ih =>
    rw [List.forM_eq_forM, List.forM_cons]
    exact (adds_build (Build.adds_debugName rfl)).bind fun _ => ih

/-- A structure gets its number before its names. -/
theorem declares_struct (r : Record Ty) {members : Pooling (List UInt32)} (h : Adds members) :
    Declares (do
      let id ← build (Builder.typeStruct (← members))
      if (← get).debug then nameMembers id r.name (r.members.map (·.1))
      return id) := by
  apply Declares.bind h
  intro ids p id p' hp
  obtain ⟨id', q, hstruct, hq⟩ := bind_ok.mp hp
  have hdeclared := declares_build (Build.numbers_type rfl ids) p id' q hstruct
  obtain ⟨_, _, hget, hq⟩ := bind_ok.mp hq
  cases hget
  dsimp only at hq
  split at hq
  · obtain ⟨_, _, hnames, hreturn⟩ := bind_ok.mp hq
    cases hreturn
    exact hdeclared.trans (adds_nameMembers _ _ _ _ _ _ hnames)
  · cases hq
    exact hdeclared

mutual

theorem adds_typeId : ∀ t : Ty, Adds (typeId t)
  | .unknown | .void => by
    rw [typeId]
    exact adds_voidId
  | .prim q => by
    rw [typeId]
    exact adds_primitiveId q
  | .vector n q => by
    rw [typeId]
    exact adds_vectorId n q
  | .matrix c r q => by
    rw [typeId]
    exact adds_matrixId c r q
  | .array t n => by
    rw [typeId]
    apply adds_declaredType
    apply Declares.bind (adds_typeId t)
    intro element
    split
    · exact declares_build (Build.numbers_type rfl _)
    · exact Declares.bind (adds_constantId _) fun _ => declares_build (Build.numbers_type rfl _)
  | .struct r => by
    rw [typeId]
    exact adds_declaredType (declares_struct r (adds_memberIds r.name r.members))
  | .uniform r => by
    rw [typeId]
    exact adds_declaredType (declares_struct r (adds_memberIds r.name r.members))
  | .storage r => by
    rw [typeId]
    exact adds_declaredType (declares_struct r (adds_memberIds r.name r.members))
  | .sampler d q depth => by
    rw [typeId]
    exact adds_samplerId d q depth
  | .func .. => by
    rw [typeId]
    exact adds_throw _
  | .intrinsic _ => by
    rw [typeId]
    exact adds_throw _

theorem adds_memberIds (struct : Text) : ∀ members : List (Text × Ty), Adds (memberIds struct members)
  | [] => by
    rw [memberIds]
    exact adds_pure _
  | (name, t) :: members => by
    rw [memberIds]
    have hmember : Adds (fun p => (typeId t p).mapError (.inMember struct name) : Pooling UInt32) := by
      intro p id p' h
      exact adds_typeId t p id p' (mapError_ok.mp h)
    apply hmember.bind
    intro id
    exact (adds_memberIds struct members).bind fun _ => adds_pure _

end

theorem adds_pointerType (storage base : UInt32) : Adds (pointerType storage base) := by
  apply adds_get.bind
  intro p
  split
  · exact adds_pure _
  · apply (declares_build (Build.numbers_type rfl _)).adds.bind
    intro id
    refine Adds.bind (adds_modify ?_ ?_) fun _ => adds_pure id
    · exact fun _ => rfl
    · exact fun _ => rfl

theorem adds_pointerTo (storage : UInt32) (t : Ty) : Adds (pointerTo storage t) :=
  (adds_typeId t).bind fun _ => adds_pointerType storage _

theorem adds_functionType (result : UInt32) (params : List UInt32) : Adds (functionType result params) := by
  apply adds_get.bind
  intro p
  split
  · exact adds_pure _
  · apply (declares_build (Build.numbers_type rfl _)).adds.bind
    intro id
    refine Adds.bind (adds_modify ?_ ?_) fun _ => adds_pure id
    · exact fun _ => rfl
    · exact fun _ => rfl

end Shading.Spirv.Pooling

namespace Shading.Spirv

/-- Steps that add outside functions. -/
structure Pool.Extends (p p' : Pool) : Prop where
  grows : ∃ n, p.Grows p' n [] ∧ p.builder.size + n ≤ p'.builder.size
  functions : p'.builder.functions = p.builder.functions

namespace Pool.Extends

variable {p q r : Pool}

theorem of_adds (h : p.Adds q []) : p.Extends q := ⟨h.grows, h.functions⟩

theorem refl (p : Pool) : p.Extends p := of_adds (.refl p)

theorem trans (h : p.Extends q) (h' : q.Extends r) : p.Extends r := by
  obtain ⟨m, hgrows, hsize⟩ := h.grows
  obtain ⟨n, hgrows', hsize'⟩ := h'.grows
  exact ⟨⟨m + n, hgrows.trans hgrows', by omega⟩, h'.functions.trans h.functions⟩

theorem lookup (h : p.Extends q) {k : Text} {id : UInt32} (hk : p.types.lookup k = some id) :
    q.types.lookup k = some id := by
  obtain ⟨n, hgrows, -⟩ := h.grows
  exact hgrows.lookup k id hk

/-- Any annotation is added. -/
theorem annotate (p : Pool) {i : Instruction} (h : i.opcode.isBound = false) :
    p.Extends { p with builder := (Builder.annotate i p.builder).2 } := by
  have hperm : (Builder.annotate i p.builder).2.declarations.Perm (i :: p.builder.declarations) :=
    Builder.perm_of_push i 7 (by decide) rfl
  have hsize := Builder.size_of_perm hperm rfl
  have hle : p.builder.size + 0 ≤ (Builder.annotate i p.builder).2.size := by omega
  have hgrows : p.Grows { p with builder := (Builder.annotate i p.builder).2 } 0 [] :=
    ⟨(UInt32.add_zero _).symm, Builder.outside_of_perm hperm h, fun _ _ h => h, [], rfl, .nil _ _⟩
  exact ⟨⟨0, hgrows, hle⟩, rfl⟩

end Pool.Extends

namespace Buffering

variable {ε α β : Type}

/-- Code that adds outside functions. -/
def Extends (x : StateT Buffers (Except ε) α) : Prop := ∀ s a s', x s = .ok (a, s') → s.pool.Extends s'.pool

theorem extends_pure (a : α) : Extends (pure a : StateT Buffers (Except ε) α) := by
  intro s a' s' h
  cases h
  exact .refl _

theorem Extends.bind {x : StateT Buffers (Except ε) α} {f : α → StateT Buffers (Except ε) β} (hx : Extends x)
    (hf : ∀ a, Extends (f a)) : Extends (x >>= f) := by
  intro s b s' h
  obtain ⟨a, s₁, hxs, hfs⟩ := bind_ok.mp h
  exact (hx s a s₁ hxs).trans (hf a s₁ b s' hfs)

theorem extends_get : Extends (get : Buffering Buffers) := by
  intro s a s' h
  cases h
  exact .refl _

theorem extends_modify {f : Buffers → Buffers} (h : ∀ s, (f s).pool = s.pool) : Extends (modify f : Buffering PUnit) := by
  intro s a s' hs
  cases hs
  rw [h]
  exact .refl _

theorem extends_liftM (x : Except FormError α) : Extends (liftM x : Buffering α) := by
  intro s a s' h
  cases x with
  | error e => cases h
  | ok b =>
    cases h
    exact .refl _

theorem pooled_ok {x : Pooling α} {s s' : Buffers} {a : α} (h : Buffers.pooled x s = .ok (a, s')) :
    ∃ pool, x s.pool = .ok (a, pool) ∧ s' = { s with pool } := by
  cases hx : x s.pool with
  | error e =>
    simp only [Buffers.pooled, hx] at h
    cases h
  | ok r =>
    simp only [Buffers.pooled, hx] at h
    cases h
    exact ⟨r.2, rfl, rfl⟩

theorem extends_pooled {x : Pooling α} (h : Pooling.Adds x) : Extends (Buffers.pooled x) := by
  intro s a s' hs
  obtain ⟨pool, hx, rfl⟩ := pooled_ok hs
  exact .of_adds (h s.pool a pool hx)

theorem extends_annotate {i : Instruction} (h : i.opcode.isBound = false) :
    Extends (Buffers.pooled (Pool.build (Builder.annotate i))) := by
  intro s a s' hs
  cases hs
  exact .annotate s.pool h

theorem extends_once {id : UInt32} {code : Buffering Unit} (h : Extends code) : Extends (Buffers.once id code) := by
  apply extends_get.bind
  intro s
  split
  · refine Extends.bind (extends_modify ?_) fun _ => h
    exact fun _ => rfl
  · exact extends_pure ()

theorem extends_decorateColumns (layout : Layout) (id member : UInt32) (t : Ty) :
    Extends (Buffers.decorateColumns layout id member t) := by
  unfold Buffers.decorateColumns
  split
  · apply (extends_liftM _).bind
    intro stride s a s' hs
    cases hs
    exact (Pool.Extends.annotate s.pool rfl).trans (.annotate _ rfl)
  · exact extends_pure ()

mutual

theorem extends_decorate (layout : Layout) : ∀ t : Ty, Extends (Buffers.decorate layout t)
  | .struct r => by
    rw [Buffers.decorate]
    apply (extends_pooled (Pooling.adds_typeId _)).bind
    intro id
    apply extends_once
    apply (extends_liftM _).bind
    intro placement
    exact extends_decorateMembers layout id 0 placement.offsets r.members
  | .array t n => by
    rw [Buffers.decorate]
    apply (extends_pooled (Pooling.adds_typeId _)).bind
    intro id
    apply extends_once
    apply (extends_liftM _).bind
    intro stride
    exact (extends_annotate rfl).bind fun _ => extends_decorate layout t
  | .unknown | .prim _ | .vector .. | .matrix .. | .sampler .. | .uniform _ | .storage _ | .func .. | .intrinsic _
  | .void => by
    simp only [Buffers.decorate]
    exact extends_pure ()

theorem extends_decorateMembers (layout : Layout) : ∀ (id member : UInt32) (offsets : List UInt32)
    (members : List (Text × Ty)), Extends (Buffers.decorateMembers layout id member offsets members)
  | _, _, _, [] => by
    rw [Buffers.decorateMembers]
    exact extends_pure ()
  | id, member, offsets, (_, t) :: members => by
    rw [Buffers.decorateMembers]
    apply (extends_annotate rfl).bind
    intro _
    apply (extends_decorateColumns layout id member t).bind
    intro _
    exact (extends_decorate layout t).bind fun _ => extends_decorateMembers layout id (member + 1) offsets.tail members

end

theorem extends_declareBlock (decoration : UInt32) (layout : Layout) (r : Record Ty) :
    Extends (Buffers.declareBlock decoration layout r) := by
  apply (extends_pooled (Pooling.adds_typeId _)).bind
  intro id
  apply extends_get.bind
  intro s
  dsimp only
  split
  · refine Extends.bind (extends_modify ?_) fun _ => ?_
    · exact fun _ => rfl
    · exact (extends_annotate rfl).bind fun _ => extends_decorate layout _
  · exact extends_decorate layout _

end Buffering

end Shading.Spirv
