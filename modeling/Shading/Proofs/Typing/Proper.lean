import Shading.Proofs.Typing.Rules

/-! The rules of typing give proper types for proper types. -/
namespace Shading

theorem Primitive.mem_named_of_isFloat {p : Primitive} (h : p.isFloat) : p ∈ Primitive.named := by
  cases p with
  | f32 | f64 => decide
  | _ => cases h

namespace Ty

variable {t u l r : Ty} {p : Primitive}

theorem Proper.isKnown (h : t.Proper) : t.isKnown := by
  cases t with
  | unknown => exact h.elim
  | _ => rfl

theorem proper_bool : (Ty.prim .bool).Proper := List.mem_cons_self

theorem properList_iff (ts : List Ty) : ProperList ts ↔ ∀ t ∈ ts, t.Proper := by
  induction ts with
  | nil => simp [ProperList]
  | cons t ts ih => rw [ProperList, ih, List.forall_mem_cons]

theorem properMembers_iff (ms : List (Text × Ty)) : ProperMembers ms ↔ ∀ m ∈ ms, m.2.Proper := by
  induction ms with
  | nil => simp [ProperMembers]
  | cons m ms ih => rw [ProperMembers, ih, List.forall_mem_cons]

/-- Scalar, vector and matrix types are the same only if they are equal. -/
theorem eq_of_same (ht : t.scalar?.isSome) (h : t.same u) : t = u := by
  cases t <;> cases u <;> simp_all [scalar?, same]

theorem eq_of_same_right (hu : u.scalar?.isSome) (h : t.same u) : t = u := by
  cases u <;> cases t <;> simp_all [scalar?, same]

theorem eq_of_isPrim (h : t.isPrim p) : t = .prim p := by
  cases t <;> simp_all [isPrim]

theorem Proper.scalarOrVector (h : t.Proper) (hp : t.scalarOrVector? = some p) : p ∈ Primitive.named := by
  cases t with
  | prim q => cases hp; exact h
  | vector n q => cases hp; exact h.2
  | _ => cases hp

theorem Proper.scalar (h : t.Proper) (hp : t.scalar? = some p) : p ∈ Primitive.named := by
  cases t with
  | prim q => cases hp; exact h
  | vector n q => cases hp; exact h.2
  | matrix c r q => cases hp; exact Primitive.mem_named_of_isFloat h.2.2
  | _ => cases hp

theorem Proper.product (hl : l.Proper) (hr : r.Proper) (h : product? l r = some t) : t.Proper := by
  unfold product? at h
  split at h
  case h_1 => cases h; exact hr
  case h_2 => cases h; exact hl
  case h_3 => split at h <;> cases h; exact hl
  case h_4 => split at h <;> cases h; exact ⟨hr.1, hl.2⟩
  case h_5 => cases h; exact hl
  case h_6 => split at h <;> cases h; exact ⟨hl.2.1, Primitive.mem_named_of_isFloat hl.2.2⟩
  case h_7 => split at h <;> cases h; exact ⟨hr.1, hl.2.1, hl.2.2⟩
  case h_8 => cases h

/-- The types that an arithmetic operation may have. -/
theorem arithmetic_cases {op : BinaryOp} (h : arithmetic? op l r = some t) :
    t = l ∨ t = r ∨ product? l r = some t := by
  simp only [arithmetic?, Option.bind_eq_bind, Option.bind_eq_some_iff] at h
  obtain ⟨p, -, q, -, h⟩ := h
  grind

/-- The rules that a binary operation may follow. -/
theorem binary_cases {op : BinaryOp} (h : l.binary op r = .ok t) :
    (op.isLogical ∧ l = .prim .bool ∧ r = .prim .bool ∧ t = .prim .bool) ∨
      (op.isLogical = false ∧ op.isComparison ∧ comparison? op l r = some t) ∨
      (op.isLogical = false ∧ op.isComparison = false ∧ op.isBitwise ∧ bitwise? l r = some t) ∨
      arithmetic? op l r = some t := by
  unfold Ty.binary at h
  dsimp only at h
  cases hlogical : op.isLogical with
  | true =>
    rw [hlogical, if_pos rfl] at h
    cases hbool : l.isBool && r.isBool with
    | true =>
      rw [hbool, if_pos rfl] at h
      cases h
      rw [Bool.and_eq_true] at hbool
      exact .inl ⟨rfl, eq_of_isPrim hbool.1, eq_of_isPrim hbool.2, rfl⟩
    | false =>
      rw [hbool] at h
      cases h
  | false =>
    rw [hlogical, if_neg Bool.false_ne_true] at h
    cases hcomparison : op.isComparison with
    | true =>
      rw [hcomparison, if_pos rfl] at h
      refine .inr (.inl ⟨rfl, rfl, ?_⟩)
      cases hresult : comparison? op l r with
      | none => rw [hresult] at h; cases h
      | some u => rw [hresult] at h; cases h; rfl
    | false =>
      rw [hcomparison, if_neg Bool.false_ne_true] at h
      cases hbitwise : op.isBitwise with
      | true =>
        rw [hbitwise, if_pos rfl] at h
        refine .inr (.inr (.inl ⟨rfl, rfl, rfl, ?_⟩))
        cases hresult : bitwise? l r with
        | none => rw [hresult] at h; cases h
        | some u => rw [hresult] at h; cases h; rfl
      | false =>
        rw [hbitwise, if_neg Bool.false_ne_true] at h
        refine .inr (.inr (.inr ?_))
        cases hresult : arithmetic? op l r with
        | none => rw [hresult] at h; cases h
        | some u => rw [hresult] at h; cases h; rfl

theorem comparison_cases {op : BinaryOp} (h : comparison? op l r = some t) :
    ∃ p, l = .prim p ∧ r = .prim p ∧ t = .prim .bool := by
  unfold comparison? at h
  split at h
  · rename_i p
    split at h
    · cases h
    · rename_i hsame
      simp only [Bool.or_eq_true, Bool.not_eq_true', not_or, Bool.not_eq_false] at hsame
      cases h
      exact ⟨p, rfl, (eq_of_same rfl hsame.1).symm, rfl⟩
  · cases h

theorem bitwise_cases (h : bitwise? l r = some t) :
    ∃ p, l.scalarOrVector? = some p ∧ p.isInteger ∧ r = l ∧ t = l := by
  simp only [bitwise?, Option.bind_eq_bind, Option.bind_eq_some_iff] at h
  obtain ⟨p, hp, h⟩ := h
  split at h
  · rename_i hsame
    simp only [Bool.and_eq_true] at hsame
    cases h
    refine ⟨p, hp, hsame.1, (eq_of_same ?_ hsame.2).symm, rfl⟩
    cases t <;> simp_all [scalarOrVector?, scalar?]
  · cases h

theorem Proper.binary {op : BinaryOp} (hl : l.Proper) (hr : r.Proper) (h : l.binary op r = .ok t) : t.Proper := by
  rcases binary_cases h with ⟨-, -, -, rfl⟩ | ⟨-, -, h⟩ | ⟨-, -, -, h⟩ | h
  · exact proper_bool
  · obtain ⟨p, -, -, rfl⟩ := comparison_cases h
    exact proper_bool
  · obtain ⟨p, -, -, -, rfl⟩ := bitwise_cases h
    exact hl
  · rcases arithmetic_cases h with rfl | rfl | hproduct
    · exact hl
    · exact hr
    · exact hl.product hr hproduct

theorem unary_ok {op : UnaryOp} (h : t.unary op = .ok u) : t.admits op ∧ u = t := by
  unfold Ty.unary at h
  split at h
  · rename_i hadmits
    cases h
    exact ⟨hadmits, rfl⟩
  · cases h

theorem Proper.unary {op : UnaryOp} (ht : t.Proper) (h : t.unary op = .ok u) : u.Proper := by
  obtain ⟨-, rfl⟩ := unary_ok h
  exact ht

/-- Members of proper types are of proper types. -/
theorem proper_of_container {r : Record Ty} {m : Text × Ty} (ht : t.Proper) (hr : t.container? = some r)
    (hm : m ∈ r.members) : m.2.Proper := by
  cases t with
  | struct r | uniform r | storage r =>
    cases hr
    exact (properMembers_iff _).mp ht _ hm
  | _ => cases hr

theorem Proper.indexStep {Γ : List Referent} {e : Expr} (ht : t.Proper) (h : Expr.IndexStep Γ e t u) :
    u.Proper := by
  cases h with
  | array => exact ht
  | vector => exact ht.2
  | matrix => exact ⟨ht.2.1, Primitive.mem_named_of_isFloat ht.2.2⟩
  | member hr hm he => exact proper_of_container ht hr (List.mem_of_getElem? hm)

theorem Proper.indexPath {Γ : List Referent} {es : List Expr} (ht : t.Proper) (h : Expr.IndexPath Γ t es u) :
    u.Proper := by
  induction h with
  | nil => exact ht
  | cons _ hstep _ ih => exact ih (ht.indexStep hstep)

theorem proper_vectorOf {n : UInt32} (hp : p ∈ Primitive.named) (hn : 1 ≤ n ∧ n ≤ 4) : (vectorOf p n).Proper := by
  unfold vectorOf
  split
  · exact hp
  · rename_i hne
    refine ⟨⟨?_, hn.2⟩, hp⟩
    have h1 := hn.1
    rw [UInt32.le_iff_toNat_le] at h1 ⊢
    have hne' : n.toNat ≠ 1 := fun heq => hne (UInt32.toNat_inj.mp heq)
    simp at h1 ⊢
    omega

end Ty

namespace Intrinsic

/-- What is known of a computation that has succeeded. -/
theorem bind_ok {α β : Type} {x : Except TypeError α} {f : α → Except TypeError β} {b : β} :
    x >>= f = .ok b ↔ ∃ a, x = .ok a ∧ f a = .ok b := by
  cases x with
  | error e => exact ⟨fun h => (by cases h), fun ⟨_, h, _⟩ => (by cases h)⟩
  | ok a => exact ⟨fun h => ⟨a, rfl, h⟩, fun ⟨_, rfl, h⟩ => h⟩

theorem pure_ok {α : Type} {a b : α} : (pure a : Except TypeError α) = .ok b ↔ a = b := by
  constructor
  · intro h; cases h; rfl
  · rintro rfl; rfl

namespace Arguments

variable {a : Arguments}

theorem count_ok {n : Nat} {u : Unit} (h : a.count n = .ok u) : a.types.length = n := by
  unfold count at h
  split at h
  · rename_i heq
    simpa using heq
  · cases h

/-- The first argument is proper if there is one. -/
theorem first_proper {n : Nat} {u : Unit} (htypes : ∀ t ∈ a.types, t.Proper) (h : a.count (n + 1) = .ok u) :
    a.first.Proper := by
  have hlength := count_ok h
  obtain ⟨fn, types⟩ := a
  cases types with
  | nil => cases hlength
  | cons t ts => exact htypes t List.mem_cons_self

theorem scalar_proper (ha : a.first.Proper) (h : a.first.scalar?.isSome) : a.scalar.Proper := by
  unfold scalar
  obtain ⟨p, hp⟩ := Option.isSome_iff_exists.mp h
  rw [hp]
  exact ha.scalar hp

theorem floatVector_scalar {u : Unit} (h : a.floatVector = .ok u) : a.first.scalar?.isSome := by
  unfold floatVector at h
  obtain ⟨-, -, h⟩ := bind_ok.mp h
  cases hfirst : a.first with
  | vector n p => rfl
  | _ => simp [hfirst, Ty.isVector] at h

end Arguments

theorem resultType_proper {fn : Intrinsic} {types : List Ty} {t : Ty} (htypes : ∀ u ∈ types, u.Proper)
    (h : fn.resultType types = .ok t) : t.Proper := by
  have hfirst {n : Nat} {u : Unit} (hcount : (Arguments.mk fn types).count (n + 1) = .ok u) :=
    Arguments.first_proper (a := ⟨fn, types⟩) htypes hcount
  cases fn with
  | abs | sign =>
    simp only [resultType, bind_ok] at h
    obtain ⟨_, hcount, _, -, h⟩ := h
    split at h <;> cases h
    exact hfirst hcount
  | ceil | floor | fract | round | trunc | sqrt | inverseSqrt | exp | exp2 | log | log2 | sin | cos | tan | asin
  | acos | atan | radians | degrees | normalize =>
    simp only [resultType, bind_ok, pure_ok] at h
    obtain ⟨_, hcount, _, -, rfl⟩ := h
    exact hfirst hcount
  | length =>
    simp only [resultType, bind_ok, pure_ok] at h
    obtain ⟨_, hcount, _, hvector, rfl⟩ := h
    exact Arguments.scalar_proper (hfirst hcount) (Arguments.floatVector_scalar hvector)
  | distance | dot =>
    simp only [resultType, bind_ok, pure_ok] at h
    obtain ⟨_, hcount, _, -, _, hvector, rfl⟩ := h
    exact Arguments.scalar_proper (hfirst hcount) (Arguments.floatVector_scalar hvector)
  | reflect | max | min | clamp | pow | step | lerp | smoothStep =>
    simp only [resultType, bind_ok, pure_ok] at h
    obtain ⟨_, hcount, _, -, _, -, rfl⟩ := h
    exact hfirst hcount
  | cross =>
    simp only [resultType, bind_ok] at h
    obtain ⟨_, hcount, _, -, _, -, h⟩ := h
    split at h <;> cases h
    exact hfirst hcount
  | all | any =>
    simp only [resultType, bind_ok] at h
    obtain ⟨_, hcount, h⟩ := h
    split at h <;> cases h
    exact Ty.proper_bool
  | transpose =>
    simp only [resultType, bind_ok] at h
    obtain ⟨_, hcount, h⟩ := h
    split at h
    · rename_i c r p heq
      cases h
      obtain ⟨hc, hr, hp⟩ := heq ▸ hfirst hcount
      exact ⟨hr, hc, hp⟩
    · cases h
  | inverse =>
    simp only [resultType, bind_ok] at h
    obtain ⟨_, hcount, h⟩ := h
    split at h
    · rename_i c r p heq
      split at h <;> cases h
      exact heq ▸ hfirst hcount
    · cases h
  | determinant =>
    simp only [resultType, bind_ok] at h
    obtain ⟨_, hcount, h⟩ := h
    split at h
    · rename_i c r p heq
      split at h <;> cases h
      obtain ⟨-, -, hp⟩ := heq ▸ hfirst hcount
      exact Primitive.mem_named_of_isFloat hp
    · cases h
  | sample =>
    simp only [resultType, bind_ok] at h
    obtain ⟨_, hcount, h⟩ := h
    split at h
    · rename_i dim p depth u
      split at h <;> cases h
      have hp : p ∈ Primitive.named := htypes (.sampler dim p depth) List.mem_cons_self
      exact ⟨⟨by decide, by decide⟩, hp⟩
    · cases h
  | size =>
    simp only [resultType, bind_ok] at h
    obtain ⟨_, hcount, h⟩ := h
    split at h <;> cases h
    show Primitive.u32 ∈ Primitive.named
    decide
  | reserved code => cases h

end Intrinsic

end Shading
