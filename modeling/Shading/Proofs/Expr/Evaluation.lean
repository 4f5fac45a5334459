import Shading.Proofs.Module.Declarations
import Shading.Proofs.Typing.Sound

/-! The values of expressions are of the types of the expressions. -/
namespace Shading

namespace Value

variable {v w x y z : Value} {p q : Primitive} {t l r : Ty}

/-- What is known of a computation that has succeeded. -/
theorem bind_ok {α β : Type} {x : Except EvalError α} {f : α → Except EvalError β} {b : β} :
    x >>= f = .ok b ↔ ∃ a, x = .ok a ∧ f a = .ok b := by
  cases x with
  | error e => exact ⟨fun h => (by cases h), fun ⟨_, h, _⟩ => (by cases h)⟩
  | ok a => exact ⟨fun h => ⟨a, rfl, h⟩, fun ⟨_, rfl, h⟩ => h⟩

theorem pure_ok {α : Type} {a b : α} : (pure a : Except EvalError α) = .ok b ↔ a = b := by
  constructor
  · intro h; cases h; rfl
  · rintro rfl; rfl

theorem isScalar_of_type (h : v.type = .prim p) : v.isScalar := by
  cases v with
  | matrix cols => cases cols <;> simp [type] at h
  | absent | vector => simp [type] at h
  | _ => rfl

theorem unary_scalar {op : UnaryOp} (hv : v.isScalar) (h : v.unary op = .ok w) : w.type = v.type := by
  cases v with
  | bool | i32 | u32 | f32 | f64 =>
    simp only [unary] at h
    split at h <;> cases h <;> rfl
  | _ => cases hv

theorem unaryList_ok {op : UnaryOp} {vs ws : List Value} (hvs : ∀ v ∈ vs, v.type = .prim p)
    (h : unaryList op vs = .ok ws) : ws.length = vs.length ∧ ∀ w ∈ ws, w.type = .prim p := by
  induction vs generalizing ws with
  | nil =>
    cases h
    exact ⟨rfl, fun w hw => (by cases hw)⟩
  | cons v vs ih =>
    simp only [unaryList, bind_ok, pure_ok] at h
    obtain ⟨w, hw, us, hus, rfl⟩ := h
    rw [List.forall_mem_cons] at hvs
    obtain ⟨hlength, htypes⟩ := ih hvs.2 hus
    refine ⟨by simp [hlength], List.forall_mem_cons.mpr ⟨?_, htypes⟩⟩
    rw [unary_scalar (isScalar_of_type hvs.1) hw, hvs.1]

theorem HasType.unary {op : UnaryOp} (hv : v.HasType t) (h : v.unary op = .ok w) : w.HasType t := by
  cases t with
  | prim p => exact (unary_scalar (isScalar_of_type hv) h).trans hv
  | vector n p =>
    obtain ⟨cs, rfl, hlength, htypes⟩ := hv
    simp only [Value.unary, bind_ok, pure_ok] at h
    obtain ⟨ds, hds, rfl⟩ := h
    obtain ⟨hlength', htypes'⟩ := unaryList_ok htypes hds
    exact ⟨ds, rfl, hlength'.trans hlength, htypes'⟩
  | matrix c r p =>
    obtain ⟨cols, rfl, -⟩ := hv
    cases h
  | _ => exact hv.elim

theorem signed_type {op : BinaryOp} {x y : Int32} (h : signed op x y = .ok z) :
    z.type = if op.isComparison then .prim .bool else .prim .i32 := by
  cases op with
  | div | mod | shiftLeft | shiftRight =>
    simp only [signed, compared?] at h
    split at h <;> cases h
    rfl
  | _ => cases h <;> rfl

theorem unsigned_type {op : BinaryOp} {x y : UInt32} (h : unsigned op x y = .ok z) :
    z.type = if op.isComparison then .prim .bool else .prim .u32 := by
  cases op with
  | div | mod | shiftLeft | shiftRight =>
    simp only [unsigned, compared?] at h
    split at h <;> cases h
    rfl
  | _ => cases h <;> rfl

theorem single_type {op : BinaryOp} {x y : Single} (h : single op x y = .ok z) :
    z.type = if op.isComparison then .prim .bool else .prim .f32 := by
  cases op <;> cases h <;> rfl

theorem double_type {op : BinaryOp} {x y : Double} (h : double op x y = .ok z) :
    z.type = if op.isComparison then .prim .bool else .prim .f64 := by
  cases op <;> cases h <;> rfl

/-- A comparison gives a truth value, and other operations give a value of the type of the operands. -/
theorem scalarBinary_type {op : BinaryOp} (h : scalarBinary op x y = .ok z) :
    z.type = if op.isComparison then .prim .bool else x.type := by
  unfold scalarBinary at h
  split at h
  · split at h <;> cases h <;> rfl
  · exact signed_type h
  · exact unsigned_type h
  · exact single_type h
  · exact double_type h
  · cases h

theorem ne_vector_of_isScalar (hx : x.isScalar) (xs : List Value) : x ≠ .vector xs := by
  rintro rfl
  cases hx

theorem binary_of_no_vector {op : BinaryOp} (hx : ∀ xs, x ≠ .vector xs) (hy : ∀ ys, y ≠ .vector ys) :
    x.binary op y = scalarBinary op x y := by
  simp [binary, hx, hy]

theorem binary_scalar {op : BinaryOp} (hx : x.isScalar) (hy : y.isScalar) : x.binary op y = scalarBinary op x y :=
  binary_of_no_vector (ne_vector_of_isScalar hx) (ne_vector_of_isScalar hy)

theorem ne_vector_of_matrix (cols : List (List Value)) (xs : List Value) : Value.matrix cols ≠ .vector xs := nofun

/-- A matrix is no operand of an operation on scalars. -/
theorem binary_matrix_left {op : BinaryOp} {cols : List (List Value)} (hy : ∀ ys, y ≠ .vector ys) :
    (Value.matrix cols).binary op y ≠ .ok z := by
  rw [binary_of_no_vector (ne_vector_of_matrix cols) hy]
  exact nofun

theorem binary_matrix_right {op : BinaryOp} {cols : List (List Value)} (hx : ∀ xs, x ≠ .vector xs) :
    x.binary op (.matrix cols) ≠ .ok z := by
  rw [binary_of_no_vector hx (ne_vector_of_matrix cols)]
  cases x <;> exact nofun

theorem binary_scalar_type {op : BinaryOp} (hx : x.type = .prim p) (hy : y.type = .prim q)
    (h : x.binary op y = .ok z) : z.type = if op.isComparison then .prim .bool else .prim p := by
  rw [binary_scalar (isScalar_of_type hx) (isScalar_of_type hy)] at h
  rw [scalarBinary_type h, hx]

section

variable {op : BinaryOp} (hop : op.isComparison = false) {xs ys zs : List Value}
include hop

theorem ne_of_not_comparison : op ≠ .eq ∧ op ≠ .ne := by
  constructor
  · rintro rfl
    cases hop
  · rintro rfl
    cases hop

theorem binaryZip_ok (hlength : xs.length = ys.length) (hxs : ∀ x ∈ xs, x.type = .prim p)
    (hys : ∀ y ∈ ys, y.type = .prim q) (h : binaryZip op xs ys = .ok zs) :
    zs.length = xs.length ∧ ∀ z ∈ zs, z.type = .prim p := by
  induction xs generalizing ys zs with
  | nil =>
    simp only [binaryZip] at h
    cases h
    exact ⟨rfl, fun z hz => (by cases hz)⟩
  | cons x xs ih =>
    cases ys with
    | nil => cases hlength
    | cons y ys =>
      simp only [binaryZip, bind_ok, pure_ok] at h
      obtain ⟨z, hz, us, hus, rfl⟩ := h
      rw [List.forall_mem_cons] at hxs hys
      obtain ⟨hlen, htypes⟩ := ih (Nat.succ.inj hlength) hxs.2 hys.2 hus
      have htype := binary_scalar_type hxs.1 hys.1 hz
      rw [hop] at htype
      exact ⟨by simp [hlen], List.forall_mem_cons.mpr ⟨htype, htypes⟩⟩

theorem binaryLeft_ok (hxs : ∀ x ∈ xs, x.type = .prim p) (hy : y.type = .prim q)
    (h : binaryLeft op xs y = .ok zs) : zs.length = xs.length ∧ ∀ z ∈ zs, z.type = .prim p := by
  induction xs generalizing zs with
  | nil =>
    simp only [binaryLeft] at h
    cases h
    exact ⟨rfl, fun z hz => (by cases hz)⟩
  | cons x xs ih =>
    simp only [binaryLeft, bind_ok, pure_ok] at h
    obtain ⟨z, hz, us, hus, rfl⟩ := h
    rw [List.forall_mem_cons] at hxs
    obtain ⟨hlen, htypes⟩ := ih hxs.2 hus
    have htype := binary_scalar_type hxs.1 hy hz
    rw [hop] at htype
    exact ⟨by simp [hlen], List.forall_mem_cons.mpr ⟨htype, htypes⟩⟩

theorem binaryRight_ok (hx : x.type = .prim p) (hys : ∀ y ∈ ys, y.type = .prim q)
    (h : binaryRight op x ys = .ok zs) : zs.length = ys.length ∧ ∀ z ∈ zs, z.type = .prim p := by
  induction ys generalizing zs with
  | nil =>
    simp only [binaryRight] at h
    cases h
    exact ⟨rfl, fun z hz => (by cases hz)⟩
  | cons y ys ih =>
    simp only [binaryRight, bind_ok, pure_ok] at h
    obtain ⟨z, hz, us, hus, rfl⟩ := h
    rw [List.forall_mem_cons] at hys
    obtain ⟨hlen, htypes⟩ := ih hys.2 hus
    have htype := binary_scalar_type hx hys.1 hz
    rw [hop] at htype
    exact ⟨by simp [hlen], List.forall_mem_cons.mpr ⟨htype, htypes⟩⟩

-- An operation that is no comparison, on values of scalar and vector types.
theorem binary_vectors (h : (Value.vector xs).binary op (.vector ys) = .ok z) :
    xs.length = ys.length ∧ ∃ zs, binaryZip op xs ys = .ok zs ∧ z = .vector zs := by
  obtain ⟨heq, hne⟩ := ne_of_not_comparison hop
  rw [binary] at h
  · split at h
    · obtain ⟨zs, hzs, hz⟩ := bind_ok.mp h
      exact ⟨‹_›, zs, hzs, (pure_ok.mp hz).symm⟩
    · cases h
  · exact heq
  · exact hne

theorem binary_vector_left (hy : y.isScalar) (h : (Value.vector xs).binary op y = .ok z) :
    ∃ zs, binaryLeft op xs y = .ok zs ∧ z = .vector zs := by
  obtain ⟨heq, hne⟩ := ne_of_not_comparison hop
  rw [binary] at h
  · obtain ⟨zs, hzs, hz⟩ := bind_ok.mp h
    exact ⟨zs, hzs, (pure_ok.mp hz).symm⟩
  · exact heq
  · exact hne
  · exact ne_vector_of_isScalar hy

theorem binary_vector_right (hx : x.isScalar) (h : x.binary op (.vector ys) = .ok z) :
    ∃ zs, binaryRight op x ys = .ok zs ∧ z = .vector zs := by
  obtain ⟨heq, hne⟩ := ne_of_not_comparison hop
  rw [binary] at h
  · obtain ⟨zs, hzs, hz⟩ := bind_ok.mp h
    exact ⟨zs, hzs, (pure_ok.mp hz).symm⟩
  · exact heq
  · exact hne
  · exact ne_vector_of_isScalar hx
  · exact fun _ h => absurd h heq
  · exact fun _ h => absurd h hne

end

theorem length_pos_of_isSize {α : Type} {xs : List α} {n : UInt32} (hn : Ty.IsSize n) (h : xs.length = n.toNat) :
    0 < xs.length := by
  have h2 := UInt32.le_iff_toNat_le.mp hn.1
  have : (2 : UInt32).toNat = 2 := rfl
  omega

/-- No operation but a comparison applies to matrices. -/
theorem not_matrix_left {op : BinaryOp} (hop : op.isComparison = false) {cols : List (List Value)}
    (hr : r.Proper) (hy : y.HasType r) : (Value.matrix cols).binary op y ≠ .ok z := by
  intro h
  cases r with
  | prim q => exact binary_matrix_left (ne_vector_of_isScalar (isScalar_of_type hy)) h
  | vector n q =>
    obtain ⟨ys, rfl, hlength, hys⟩ := hy
    have hpos := length_pos_of_isSize hr.1 hlength
    cases ys with
    | nil => cases hpos
    | cons y ys =>
      have hfirst := isScalar_of_type (hys y List.mem_cons_self)
      cases op with
      | eq | ne => cases hop
      | _ =>
        simp only [binary, binaryRight, bind_ok] at h
        obtain ⟨zs, ⟨z', hz', -⟩, -⟩ := h
        exact binary_matrix_left (ne_vector_of_isScalar hfirst) hz'
  | matrix c r q =>
    obtain ⟨cols', rfl, -⟩ := hy
    exact binary_matrix_left (ne_vector_of_matrix cols') h
  | _ => exact hy.elim

theorem not_matrix_right {op : BinaryOp} (hop : op.isComparison = false) {cols : List (List Value)}
    (hl : l.Proper) (hx : x.HasType l) : x.binary op (Value.matrix cols) ≠ .ok z := by
  intro h
  cases l with
  | prim q => exact binary_matrix_right (ne_vector_of_isScalar (isScalar_of_type hx)) h
  | vector n q =>
    obtain ⟨xs, rfl, hlength, hxs⟩ := hx
    have hpos := length_pos_of_isSize hl.1 hlength
    cases xs with
    | nil => cases hpos
    | cons x xs =>
      have hfirst := isScalar_of_type (hxs x List.mem_cons_self)
      cases op with
      | eq | ne => cases hop
      | _ =>
        simp only [binary, binaryLeft, bind_ok] at h
        obtain ⟨zs, ⟨z', hz', -⟩, -⟩ := h
        exact binary_matrix_right (ne_vector_of_isScalar hfirst) hz'
  | matrix c r q =>
    obtain ⟨cols', rfl, -⟩ := hx
    exact binary_matrix_right (ne_vector_of_matrix cols') h
  | _ => exact hx.elim

theorem product_vector {n : UInt32} (hr : r.isMatrix = false) (h : Ty.product? (.vector n p) r = some t) :
    t = .vector n p := by
  cases r with
  | prim q => cases h; rfl
  | vector m q =>
    simp only [Ty.product?] at h
    split at h <;> cases h
    rfl
  | matrix => cases hr
  | _ => cases h

/-- The type of an arithmetic operation on scalars and vectors is that of the vector, if there is one. -/
theorem arithmetic_shape {op : BinaryOp} (h : Ty.arithmetic? op l r = some t) (hl : l.isMatrix = false)
    (hr : r.isMatrix = false) :
    ∃ p, l.scalarOrVector? = some p ∧ r.scalarOrVector? = some p ∧
      ((l = .prim p ∧ t = r) ∨ (∃ n, l = .vector n p ∧ t = l)) := by
  simp only [Ty.arithmetic?, Option.bind_eq_bind, Option.bind_eq_some_iff] at h
  obtain ⟨p, hp, q, hq, h⟩ := h
  split at h
  · cases h
  · rename_i hpq
    simp only [Bool.or_eq_true, bne_iff_ne, ne_eq, not_or, Decidable.not_not] at hpq
    obtain ⟨rfl, -⟩ := hpq
    refine ⟨p, ?_, ?_, ?_⟩
    · cases l <;> simp_all [Ty.scalar?, Ty.scalarOrVector?, Ty.isMatrix]
    · cases r <;> simp_all [Ty.scalar?, Ty.scalarOrVector?, Ty.isMatrix]
    · have hsame (h : l.same r) : l = r := Ty.eq_of_same (by rw [hp]; rfl) h
      cases l with
      | prim p' =>
        cases hp
        refine .inl ⟨rfl, ?_⟩
        cases op with
        | mul =>
          cases h
          rfl
        | add | sub =>
          obtain ⟨hlr, ht⟩ := Option.ite_none_right_eq_some.mp h
          cases ht
          exact hsame hlr
        | mod =>
          obtain ⟨hlr, ht⟩ := Option.ite_none_right_eq_some.mp h
          cases ht
          exact hsame (Bool.and_eq_true_iff.mp hlr).2
        | div =>
          obtain ⟨-, h⟩ := Option.ite_none_left_eq_some.mp h
          split at h
          · next hlr =>
            cases h
            exact hsame hlr
          · rw [if_neg (by simp [Ty.isVector])] at h
            obtain ⟨-, ht⟩ := Option.ite_none_right_eq_some.mp h
            cases ht
            rfl
        | _ => cases h
      | vector n p' =>
        cases hp
        refine .inr ⟨n, rfl, ?_⟩
        cases op with
        | mul => exact product_vector hr h
        | add | sub | mod =>
          obtain ⟨-, ht⟩ := Option.ite_none_right_eq_some.mp h
          cases ht
          rfl
        | div =>
          obtain ⟨-, h⟩ := Option.ite_none_left_eq_some.mp h
          split at h
          · cases h
            rfl
          · split at h
            · cases h
              rfl
            · rw [if_neg (by simp [Ty.isPrim])] at h
              cases h
        | _ => cases h
      | matrix => cases hl
      | _ => cases hp

theorem HasType.of_scalarOrVector (hv : v.HasType t) (ht : t.scalarOrVector? = some p) :
    (t = .prim p ∧ v.type = .prim p) ∨
      ∃ n cs, t = .vector n p ∧ v = .vector cs ∧ cs.length = n.toNat ∧ ∀ c ∈ cs, c.type = .prim p := by
  cases t with
  | prim q =>
    cases ht
    exact .inl ⟨rfl, hv⟩
  | vector n q =>
    cases ht
    obtain ⟨cs, rfl, hlength, htypes⟩ := hv
    exact .inr ⟨n, cs, rfl, rfl, hlength, htypes⟩
  | _ => cases ht

/-- An operation on values of scalar and vector types, whose type is that of the vector if there is one. -/
theorem HasType.combine {op : BinaryOp} (hop : op.isComparison = false) (hx : x.HasType l) (hy : y.HasType r)
    (hlp : l.scalarOrVector? = some p) (hrp : r.scalarOrVector? = some p)
    (ht : (l = .prim p ∧ t = r) ∨ (∃ n, l = .vector n p ∧ t = l)) (h : x.binary op y = .ok z) : z.HasType t := by
  rcases hx.of_scalarOrVector hlp with ⟨rfl, hx⟩ | ⟨n, xs, rfl, rfl, hxlength, hxs⟩
  · obtain ⟨-, rfl⟩ | ⟨n, heq, -⟩ := ht
    · rcases hy.of_scalarOrVector hrp with ⟨rfl, hy⟩ | ⟨m, ys, rfl, rfl, hylength, hys⟩
      · have htype := binary_scalar_type hx hy h
        rw [hop] at htype
        exact htype
      · obtain ⟨zs, hzs, rfl⟩ := binary_vector_right hop (isScalar_of_type hx) h
        obtain ⟨hlength, htypes⟩ := binaryRight_ok hop hx hys hzs
        exact ⟨zs, rfl, hlength.trans hylength, htypes⟩
    · cases heq
  · obtain ⟨heq, -⟩ | ⟨k, -, rfl⟩ := ht
    · cases heq
    · rcases hy.of_scalarOrVector hrp with ⟨rfl, hy⟩ | ⟨m, ys, rfl, rfl, hylength, hys⟩
      · obtain ⟨zs, hzs, rfl⟩ := binary_vector_left hop (isScalar_of_type hy) h
        obtain ⟨hlength, htypes⟩ := binaryLeft_ok hop hxs hy hzs
        exact ⟨zs, rfl, hlength.trans hxlength, htypes⟩
      · obtain ⟨heq, zs, hzs, rfl⟩ := binary_vectors hop h
        obtain ⟨hlength, htypes⟩ := binaryZip_ok hop heq hxs hys hzs
        exact ⟨zs, rfl, hlength.trans hxlength, htypes⟩

theorem isComparison_of_arithmetic {op : BinaryOp} (h : Ty.arithmetic? op l r = some t) :
    op.isComparison = false := by
  simp only [Ty.arithmetic?, Option.bind_eq_bind, Option.bind_eq_some_iff] at h
  obtain ⟨p, -, q, -, h⟩ := h
  cases op with
  | eq | ne | lt | le | gt | ge => split at h <;> cases h
  | _ => rfl

theorem HasType.isMatrix (hv : v.HasType t) : t.isMatrix = false ∨ ∃ cols, v = .matrix cols := by
  cases t with
  | matrix c r q =>
    obtain ⟨cols, rfl, -⟩ := hv
    exact .inr ⟨cols, rfl⟩
  | _ => exact .inl rfl

theorem HasType.binary {op : BinaryOp} (hl : l.Proper) (hr : r.Proper) (hx : x.HasType l) (hy : y.HasType r)
    (ht : l.binary op r = .ok t) (h : x.binary op y = .ok z) : z.HasType t := by
  rcases Ty.binary_cases ht with ⟨hlogical, rfl, rfl, rfl⟩ | ⟨-, hcomparison, ht⟩ | ⟨-, hop, -, ht⟩ | ht
  · have hop : op.isComparison = false := by cases op <;> first | rfl | cases hlogical
    exact hx.combine hop hy rfl rfl (.inl ⟨rfl, rfl⟩) h
  · obtain ⟨p, rfl, rfl, rfl⟩ := Ty.comparison_cases ht
    have htype := binary_scalar_type hx hy h
    rw [hcomparison] at htype
    exact htype
  · obtain ⟨p, hp, -, rfl, rfl⟩ := Ty.bitwise_cases ht
    refine hx.combine hop hy hp hp ?_ h
    cases t with
    | prim q => cases hp; exact .inl ⟨rfl, rfl⟩
    | vector n q => cases hp; exact .inr ⟨n, rfl, rfl⟩
    | _ => cases hp
  · have hop := isComparison_of_arithmetic ht
    rcases hx.isMatrix with hlm | ⟨cols, rfl⟩
    · rcases hy.isMatrix with hrm | ⟨cols, rfl⟩
      · obtain ⟨p, hlp, hrp, hshape⟩ := arithmetic_shape ht hlm hrm
        exact hx.combine hop hy hlp hrp hshape h
      · exact absurd h (not_matrix_right hop hl hx)
    · exact absurd h (not_matrix_left hop hr hy)

theorem convert_type (hp : p ∈ Primitive.named) (h : v.convert p = .ok w) : w.type = .prim p := by
  have hnamed : p = .bool ∨ p = .i32 ∨ p = .u32 ∨ p = .f32 ∨ p = .f64 := by
    simpa [Primitive.named] using hp
  unfold convert at h
  rcases hnamed with rfl | rfl | rfl | rfl | rfl <;> grind [Value.type]

/-- The values of a list that is worked through one after the other. -/
theorem mapM_ok {α β : Type} {f : α → Except EvalError β} {Q : β → Prop} {as : List α} {bs : List β}
    (hf : ∀ a ∈ as, ∀ b, f a = .ok b → Q b) (h : as.mapM f = .ok bs) : bs.length = as.length ∧ ∀ b ∈ bs, Q b := by
  induction as generalizing bs with
  | nil =>
    cases h
    exact ⟨rfl, fun b hb => (by cases hb)⟩
  | cons a as ih =>
    simp only [List.mapM_cons, bind_ok, pure_ok] at h
    obtain ⟨b, hb, us, hus, rfl⟩ := h
    rw [List.forall_mem_cons] at hf
    obtain ⟨hlength, hall⟩ := ih hf.2 hus
    exact ⟨by simp [hlength], List.forall_mem_cons.mpr ⟨hf.1 b hb, hall⟩⟩

theorem castVector_ok {n : UInt32} {args cs : List Value} (hp : p ∈ Primitive.named)
    (h : castVector n p args = .ok cs) : cs.length = n.toNat ∧ ∀ c ∈ cs, c.type = .prim p := by
  unfold castVector at h
  extract_lets given parts at h
  split at h
  · cases h
  · rename_i hlength
    obtain ⟨hsize, htypes⟩ := mapM_ok (fun _ _ _ hb => convert_type hp hb) h
    exact ⟨hsize.trans (Decidable.not_not.mp hlength), htypes⟩

theorem length_pieces {α : Type} (size n : Nat) (xs : List α) : (pieces size n xs).length = n := by
  induction n generalizing xs with
  | zero => rfl
  | succ n ih => rw [pieces, List.length_cons, ih]

theorem HasType.cast {args : List Value} (ht : t.Proper) (h : Value.cast t args = .ok v) : v.HasType t := by
  unfold Value.cast at h
  split at h
  · exact convert_type ht h
  · cases h
  · simp only [bind_ok, pure_ok] at h
    obtain ⟨cs, hcs, rfl⟩ := h
    obtain ⟨hlength, htypes⟩ := castVector_ok ht.2 hcs
    exact ⟨cs, rfl, hlength, htypes⟩
  · have hp := Primitive.mem_named_of_isFloat ht.2.2
    simp only [resize, bind_ok, pure_ok] at h
    obtain ⟨cols, hcols, rfl⟩ := h
    obtain ⟨hlength, hall⟩ := mapM_ok
      (fun _ _ _ hcol => mapM_ok (fun _ _ _ hx => convert_type hp hx) hcol) hcols
    refine ⟨cols, rfl, by rw [hlength, List.length_range], fun col hcol => ?_⟩
    obtain ⟨hsize, htypes⟩ := hall col hcol
    exact ⟨by rw [hsize, List.length_range], htypes⟩
  · have hp := Primitive.mem_named_of_isFloat ht.2.2
    split at h
    · cases h
    · dsimp only at h
      split at h
      · cases h
      · simp only [bind_ok, pure_ok] at h
        obtain ⟨cols, hcols, rfl⟩ := h
        obtain ⟨hlength, hall⟩ := mapM_ok (fun _ _ _ hcol => castVector_ok hp hcol) hcols
        exact ⟨cols, rfl, by rw [hlength, length_pieces], hall⟩
  · cases h

theorem HasType.of_spread (hv : v.HasType t) (ht : t.scalarOrVector? = some p) :
    ∀ x ∈ spread v, x.type = .prim p := by
  rcases hv.of_scalarOrVector ht with ⟨-, hv⟩ | ⟨n, cs, -, rfl, -, hcs⟩
  · have hscalar := isScalar_of_type hv
    cases v <;> cases hscalar <;> exact fun x hx => List.mem_singleton.mp hx ▸ hv
  · exact hcs

/-- A selection of components of a list: one of them, or a vector of them. -/
theorem picked_ok {source : List Value} {components : List UInt32} {err : UInt32 → EvalError}
    (h : (do
      let picked ← components.mapM fun c : UInt32 =>
        match source[c.toNat]? with
        | some x => Except.ok x
        | none => .error (err c)
      match picked with
      | [x] => return x
      | xs => return .vector xs : Except EvalError Value) = .ok w) :
    ∃ xs, xs.length = components.length ∧ (∀ x ∈ xs, x ∈ source) ∧
      (xs = [w] ∨ xs.length ≠ 1 ∧ w = .vector xs) := by
  obtain ⟨xs, hxs, h⟩ := bind_ok.mp h
  obtain ⟨hlength, hmem⟩ := mapM_ok (Q := (· ∈ source)) (fun c _ x hx => by
    split at hx
    · cases hx
      exact List.mem_of_getElem? ‹_›
    · cases hx) hxs
  refine ⟨xs, hlength, hmem, ?_⟩
  split at h
  · cases h
    exact .inl rfl
  · rename_i hne
    cases h
    refine .inr ⟨fun hone => ?_, rfl⟩
    obtain ⟨x, rfl⟩ := List.length_eq_one_iff.mp hone
    exact hne x rfl

theorem swizzle_ok {components : List UInt32} (h : v.swizzle components = .ok w) :
    ∃ xs, xs.length = components.length ∧ (∀ x ∈ xs, x ∈ spread v) ∧
      (xs = [w] ∨ xs.length ≠ 1 ∧ w = .vector xs) := by
  cases v with
  | absent | matrix => cases h
  | _ => exact picked_ok h

theorem HasType.swizzle {components : List UInt32} {n : UInt32} (hv : v.HasType t) (ht : t.scalarOrVector? = some p)
    (hlength : components.length = n.toNat) (h : v.swizzle components = .ok w) : w.HasType (.vectorOf p n) := by
  obtain ⟨xs, hxs, hmem, hw⟩ := swizzle_ok h
  have htypes : ∀ x ∈ xs, x.type = .prim p := fun x hx => hv.of_spread ht x (hmem x hx)
  have hn : xs.length = n.toNat := hxs.trans hlength
  unfold Ty.vectorOf
  rcases hw with rfl | ⟨hne, rfl⟩
  · have hone : n = 1 := UInt32.toNat_inj.mp hn.symm
    rw [if_pos hone]
    exact htypes w List.mem_cons_self
  · have hnot : n ≠ 1 := by
      rintro rfl
      exact hne hn
    rw [if_neg hnot]
    exact ⟨xs, rfl, hn, htypes⟩

theorem element_ok {α : Type} {xs : List α} {f : α → Value} {i : Int} (h : index.element v i xs f = .ok w) :
    ∃ x ∈ xs, w = f x := by
  unfold index.element at h
  split at h
  · rename_i x hx
    cases h
    split at hx
    · cases hx
    · exact ⟨x, List.mem_of_getElem? hx, rfl⟩
  · cases h

/-- Elements are those of vectors and matrices. -/
theorem HasType.index {i : Int} {n : Nat} {u : Ty} (hv : v.HasType t) (hu : u.Behind (n + 1) t)
    (h : v.index i = .ok w) : ∃ s, w.HasType s ∧ u.Behind n s := by
  cases t with
  | vector k p =>
    obtain ⟨cs, rfl, -, hcs⟩ := hv
    obtain ⟨c, hc, hw⟩ := element_ok h
    rw [hw]
    exact ⟨.prim p, hcs c hc, hu⟩
  | matrix c r p =>
    obtain ⟨cols, rfl, -, hcols⟩ := hv
    obtain ⟨col, hcol, rfl⟩ := element_ok h
    obtain ⟨hlength, hcol⟩ := hcols col hcol
    exact ⟨.vector r p, ⟨col, rfl, hlength, hcol⟩, hu⟩
  | prim p =>
    have hscalar := isScalar_of_type hv
    cases v <;> cases hscalar <;> cases h
  | _ => exact hv.elim

end Value

theorem Selector.length_components {s : Selector} (h : s.count ≤ 4) : s.components.length = s.count.toNat := by
  have h4 := UInt32.le_iff_toNat_le.mp h
  have hall : s.all.length = 4 := rfl
  have hfour : (4 : UInt32).toNat = 4 := rfl
  rw [components, List.length_take, hall]
  omega

theorem Value.HasType.scalar {v : Value} {t : Ty} (h : v.HasType t) : t.scalar?.isSome := by
  cases t with
  | prim | vector | matrix => rfl
  | _ => exact h.elim

namespace Expr

variable {p : Place} {lookup : Int → Option Value}

/-- The values that are looked up are those of the declarations. -/
def Agrees (Γ : List Referent) (lookup : Int → Option Value) : Prop :=
  ∀ {id t v}, Referent.constant id t v ∈ Γ → lookup id = v

/-- Every value that is looked up for a declared constant is of its type. -/
def Fits (Γ : List Referent) (lookup : Int → Option Value) : Prop :=
  ∀ {id t v w}, Referent.constant id t v ∈ Γ → lookup id = some w → w.HasType t

/-- Every value that is looked up for a constant is of its type. -/
def Suits (Γ : Int → Ty → Prop) (lookup : Int → Option Value) : Prop :=
  ∀ id t w, Γ id t → lookup id = some w → w.HasType t

theorem Fits.suits {Γ : List Referent} (h : Fits Γ lookup) : Suits (Referent.Typing Γ) lookup :=
  fun _ _ _ ⟨_, hv⟩ hw => h hv hw

theorem evaluateIndices_hasType {v w : Value} {t u : Ty} (hv : v.HasType t) (es : List Expr)
    (hu : u.Behind es.length t) (h : evaluateIndices lookup v es = .ok w) : w.HasType u := by
  induction es generalizing v t with
  | nil =>
    cases hu
    cases h
    exact hv
  | cons e es ih =>
    simp only [evaluateIndices, Value.bind_ok] at h
    obtain ⟨i, hi, h⟩ := h
    split at h
    · cases h
    · obtain ⟨x, hx, h⟩ := Value.bind_ok.mp h
      obtain ⟨s, hs, hus⟩ := hv.index hu hx
      exact ih hs hus h

/-- The value of an expression is of the type of the expression, which is a proper one. -/
theorem Sound.hasType {Γ : Int → Ty → Prop} (hlookup : Suits Γ lookup) (e : Expr) (he : e.Sound Γ) {v : Value}
    (h : e.evaluate lookup = .ok v) : e.type.Proper ∧ v.HasType e.type := by
  cases e with
  | literal i w =>
    cases h
    exact ⟨he.proper rfl, he.derived rfl⟩
  | const i id =>
    simp only [evaluate] at h
    split at h
    · rename_i x hx
      cases h
      exact ⟨he.proper rfl, hlookup _ _ _ (he.derived rfl) hx⟩
    · cases h
  | unary i op e =>
    simp only [evaluate, Value.bind_ok] at h
    obtain ⟨w, hw, h⟩ := h
    obtain ⟨-, hvalue⟩ := Sound.hasType hlookup e (he.child List.mem_cons_self) hw
    have htype : (Expr.unary i op e).type = e.type := he.derived rfl
    refine ⟨he.proper rfl, ?_⟩
    rw [htype]
    exact hvalue.unary h
  | binary i op l r =>
    simp only [evaluate, Value.bind_ok] at h
    obtain ⟨x, hx, y, hy, h⟩ := h
    obtain ⟨hlproper, hlvalue⟩ := Sound.hasType hlookup l (he.child (by simp [children])) hx
    obtain ⟨hrproper, hrvalue⟩ := Sound.hasType hlookup r (he.child (by simp [children])) hy
    exact ⟨he.proper rfl, hlvalue.binary hlproper hrproper hrvalue (he.derived rfl) h⟩
  | ternary i c t f =>
    simp only [evaluate, Value.bind_ok] at h
    obtain ⟨w, hw, h⟩ := h
    obtain ⟨hsame, hi⟩ := he.derived rfl
    have htype : (Expr.ternary i c t f).type = t.type := hi
    refine ⟨he.proper rfl, ?_⟩
    rw [htype]
    split at h
    · exact (Sound.hasType hlookup t (he.child (by simp [children])) h).2
    · have hvalue := (Sound.hasType hlookup f (he.child (by simp [children])) h).2
      rw [Ty.eq_of_same_right hvalue.scalar hsame]
      exact hvalue
    · cases h
  | cast i target args =>
    obtain ⟨j, rfl⟩ := he.derived rfl
    simp only [evaluate, Value.bind_ok] at h
    obtain ⟨vs, -, h⟩ := h
    exact ⟨he.proper rfl, .cast (he.proper rfl) h⟩
  | swizzle i b s =>
    simp only [evaluate, Value.bind_ok] at h
    obtain ⟨w, hw, h⟩ := h
    obtain ⟨q, hq, hcount, hi⟩ := he.derived rfl
    obtain ⟨-, hvalue⟩ := Sound.hasType hlookup b (he.child (by simp [children])) hw
    have htype : (Expr.swizzle i b s).type = Ty.vectorOf q s.count := hi
    refine ⟨he.proper rfl, ?_⟩
    rw [htype]
    exact hvalue.swizzle hq (Selector.length_components hcount.2) h
  | index i b is =>
    simp only [evaluate, Value.bind_ok] at h
    obtain ⟨w, hw, h⟩ := h
    obtain ⟨-, hvalue⟩ := Sound.hasType hlookup b (he.child (by simp [children])) hw
    exact ⟨he.proper rfl, evaluateIndices_hasType hvalue is (he.derived rfl) h⟩
  | _ => cases h

theorem evaluate_hasType (hlookup : Fits p.context lookup) (e : Expr) (he : e.Checked p) {v : Value}
    (h : e.evaluate lookup = .ok v) : v.HasType e.type := (Sound.hasType hlookup.suits e he.sound h).2

variable {f g : Int → Option Value}

mutual

/-- The value of an expression depends on the constants that it can refer to. -/
theorem evaluate_congr (hfg : ∀ {id t v}, Referent.constant id t v ∈ p.context → f id = g id) (e : Expr)
    (he : e.Checked p) : e.evaluate f = e.evaluate g := by
  have hconsistent := he.consistent
  cases e with
  | const i id =>
    obtain ⟨v, hv⟩ := hconsistent
    simp only [evaluate, hfg hv]
  | unary i op e => simp only [evaluate, evaluate_congr hfg e (he.child (by simp [children]))]
  | binary i op l r =>
    simp only [evaluate, evaluate_congr hfg l (he.child (by simp [children])),
      evaluate_congr hfg r (he.child (by simp [children]))]
  | ternary i c t e =>
    simp only [evaluate, evaluate_congr hfg c (he.child (by simp [children])),
      evaluate_congr hfg t (he.child (by simp [children])), evaluate_congr hfg e (he.child (by simp [children]))]
  | cast i target args =>
    obtain ⟨⟨j, rfl⟩, -⟩ := hconsistent
    simp only [evaluate, evaluateAll_congr hfg args fun a ha => he.child (by simp [children, ha])]
  | swizzle i b s => simp only [evaluate, evaluate_congr hfg b (he.child (by simp [children]))]
  | index i b is =>
    simp only [evaluate, evaluate_congr hfg b (he.child (by simp [children])),
      evaluateIndices_congr hfg is fun a ha => he.child (by simp [children, ha])]
  | _ => rfl

theorem evaluateAll_congr (hfg : ∀ {id t v}, Referent.constant id t v ∈ p.context → f id = g id)
    (es : List Expr) (hes : ∀ e ∈ es, e.Checked p) : evaluateAll f es = evaluateAll g es := by
  cases es with
  | nil => rfl
  | cons e es =>
    rw [List.forall_mem_cons] at hes
    simp only [evaluateAll, evaluate_congr hfg e hes.1, evaluateAll_congr hfg es hes.2]

theorem evaluateIndices_congr (hfg : ∀ {id t v}, Referent.constant id t v ∈ p.context → f id = g id)
    (es : List Expr) (hes : ∀ e ∈ es, e.Checked p) (v : Value) :
    evaluateIndices f v es = evaluateIndices g v es := by
  cases es with
  | nil => rfl
  | cons e es =>
    rw [List.forall_mem_cons] at hes
    simp only [evaluateIndices, evaluate_congr hfg e hes.1, evaluateIndices_congr hfg es hes.2]

end

/-- What an expression evaluates to with the values that are looked up, it evaluates to with those that are
declared. -/
theorem Checked.evaluates {e : Expr} (he : e.Checked p) (hlookup : Agrees p.context lookup) {v : Value}
    (h : e.evaluate lookup = .ok v) : e.Evaluates p.context v := by
  classical
  let declared (id : Int) : Option Value :=
    if ∃ t w, Referent.constant id t w ∈ p.context then lookup id else none
  refine ⟨declared, fun id w hw => ?_, ?_⟩
  · by_cases hex : ∃ t u, Referent.constant id t u ∈ p.context
    · simp only [declared, if_pos hex] at hw
      obtain ⟨t, u, hu⟩ := hex
      have hagree := hlookup hu
      rw [hw] at hagree
      exact ⟨t, hagree ▸ hu⟩
    · simp only [declared, if_neg hex] at hw
      cases hw
  · rw [← h]
    refine evaluate_congr (fun hmem => ?_) e he
    exact if_pos ⟨_, _, hmem⟩

end Expr

namespace Value

theorem componentType_of {p : Primitive} {vs : List Value} (hpos : 0 < vs.length)
    (h : ∀ v ∈ vs, v.type = .prim p) : componentType (types vs) = p := by
  cases vs with
  | nil => cases hpos
  | cons v vs =>
    rw [types, componentType, h v List.mem_cons_self]
    rfl

theorem toUInt32_of_toNat {k : Nat} {n : UInt32} (h : k = n.toNat) : k.toUInt32 = n := by
  rw [h]
  exact UInt32.ofNat_toNat

/-- A value of a proper type has it as its own type. -/
theorem HasType.type_eq {v : Value} {t : Ty} (ht : t.Proper) (h : v.HasType t) : v.type = t := by
  cases t with
  | prim p => exact h
  | vector n p =>
    obtain ⟨cs, rfl, hlength, htypes⟩ := h
    rw [type, toUInt32_of_toNat hlength, componentType_of (length_pos_of_isSize ht.1 hlength) htypes]
  | matrix c r p =>
    obtain ⟨cols, rfl, hlength, hcols⟩ := h
    have hpos := length_pos_of_isSize ht.1 hlength
    cases cols with
    | nil => cases hpos
    | cons col cols =>
      obtain ⟨hrows, htypes⟩ := hcols col List.mem_cons_self
      rw [List.length_cons] at hlength
      rw [type, toUInt32_of_toNat hlength, toUInt32_of_toNat hrows,
        componentType_of (length_pos_of_isSize ht.2.1 hrows) htypes]
  | _ => exact h.elim

end Value

/-- A literal of a value of a proper type. -/
theorem Expr.checked_ofValue {p : Place} {v : Value} {t : Ty} (span : Span) (ht : t.Proper) (h : v.HasType t) :
    (Expr.ofValue span v).Checked p := by
  have htype := h.type_eq ht
  refine .mk ⟨?_, ?_, trivial⟩ fun c hc => (by cases hc)
  · show v.type.Proper
    rw [htype]
    exact ht
  · show v.HasType v.type
    rw [htype]
    exact h

end Shading
