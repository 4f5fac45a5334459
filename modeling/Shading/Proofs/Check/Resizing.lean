import Shading.Proofs.Check.Conversion
import Shading.Proofs.Check.Selection
import Shading.Proofs.FloatFormat.Rounding
import Shading.Proofs.Meaning.Frame
import Shading.Proofs.Token.Lexing

/-! A matrix that is built from the columns of another one is that matrix in another shape. -/
namespace Shading

namespace Value

variable {v w : Value} {p q : Primitive} {vs col : List Value} {columns : List (List Value)} {c r d s : UInt32} {i : Nat}

/-- What a number is when it is converted to its own type: only a NaN may change. -/
def settled : Value → Value
  | .f32 x => .f32 x.toDouble.toSingle
  | v => v

theorem settled_settled (v : Value) : v.settled.settled = v.settled := by
  cases v with
  | f32 x => exact congrArg f32 x.toSingle_toDouble_toSingle
  | _ => rfl

theorem type_settled (v : Value) : v.settled.type = v.type := by
  cases v <;> rfl

theorem convert_settled (hq : q.isFloat) (hv : v.type = .prim q) : v.convert q = .ok v.settled := by
  have hscalar := isScalar_of_type hv
  cases v <;> cases hscalar <;> cases hv <;> first | rfl | cases hq

theorem mapM_convert (hq : q.isFloat) (hvs : ∀ v ∈ vs, v.type = .prim q) :
    vs.mapM (convert · q) = .ok (vs.map settled) := by
  rw [mapM_eq_ok_iff, List.forall₂_map_right_iff, List.forall₂_same]
  exact fun v hv => convert_settled hq (hvs v hv)

/-- The entry of a matrix in another shape. -/
def resizedEntry (columns : List (List Value)) (q : Primitive) (i j : Nat) : Value :=
  match columns[i]? >>= (·[j]?) with
  | some v => v
  | none => scalar q (i == j)

theorem type_resizedEntry (hq : q.isFloat) (hcolumns : ∀ col ∈ columns, ∀ x ∈ col, x.type = .prim q) (i j : Nat) :
    (resizedEntry columns q i j).type = .prim q := by
  unfold resizedEntry
  split
  · rename_i v hv
    obtain ⟨col, hcol, hv⟩ := Option.bind_eq_some_iff.mp hv
    exact hcolumns col (List.mem_of_getElem? hcol) v (List.mem_of_getElem? hv)
  · exact type_scalar hq _

/-- The components of a column before and after they are converted to their own type. -/
def IsColumn (columns : List (List Value)) (q : Primitive) (r : UInt32) (i : Nat) (col : List Value) : Prop :=
  (∀ x ∈ col, x.type = .prim q) ∧
    col.map settled = (List.range r.toNat).map fun j => (resizedEntry columns q i j).settled

/-- The matrix in another shape. -/
def resized (columns : List (List Value)) (c r : UInt32) (q : Primitive) : Value :=
  .matrix ((List.range c.toNat).map fun i => (List.range r.toNat).map fun j => (resizedEntry columns q i j).settled)

theorem resize_eq (hq : q.isFloat) (hcolumns : ∀ col ∈ columns, ∀ x ∈ col, x.type = .prim q) :
    resize columns c r q = .ok (resized columns c r q) := by
  unfold resize
  refine bind_ok.mpr ⟨_, ?_, rfl⟩
  rw [mapM_eq_ok_iff, List.forall₂_map_right_iff, List.forall₂_same]
  intro i _
  rw [mapM_eq_ok_iff, List.forall₂_map_right_iff, List.forall₂_same]
  intro j _
  exact convert_settled hq (type_resizedEntry hq hcolumns i j)

theorem IsColumn.length (h : IsColumn columns q r i col) : col.length = r.toNat := by
  have := congrArg List.length h.2
  rwa [List.length_map, List.length_map, List.length_range] at this

theorem resizedEntry_of_lt {j : Nat} (hi : i < columns.length) (hj : j < columns[i].length) (q : Primitive) :
    resizedEntry columns q i j = columns[i][j] := by
  have hentry : (columns[i]? >>= (·[j]?)) = some columns[i][j] := by
    rw [List.getElem?_eq_getElem hi]
    exact List.getElem?_eq_getElem hj
  rw [resizedEntry, hentry]

theorem resizedEntry_of_le {j : Nat} (h : columns[i]? >>= (·[j]?) = none) (q : Primitive) :
    resizedEntry columns q i j = Expr.identityEntry q j i := by
  rw [resizedEntry, h, Expr.identityEntry]
  exact congrArg (scalar q) (BEq.comm (a := i) (b := j))

theorem isColumn_identity (hq : q.isFloat) (hi : columns.length ≤ i) :
    IsColumn columns q r i ((List.range r.toNat).map fun k => Expr.identityEntry q k i) := by
  refine ⟨fun x hx => ?_, ?_⟩
  · obtain ⟨k, -, rfl⟩ := List.mem_map.mp hx
    exact type_scalar hq _
  · rw [List.map_map]
    refine List.map_congr_left fun k _ => ?_
    have hnone : (columns[i]? >>= (·[k]?)) = none := by rw [List.getElem?_eq_none hi]; rfl
    exact congrArg settled (resizedEntry_of_le hnone q).symm

section

variable (hi : i < columns.length) (htypes : ∀ x ∈ columns[i], x.type = .prim q)
include htypes

theorem isColumn_narrowed (hlength : r.toNat ≤ columns[i].length) :
    IsColumn columns q r i (columns[i].take r.toNat) := by
  refine ⟨fun x hx => htypes x (List.mem_of_mem_take hx), ?_⟩
  refine List.ext_getElem (by simp [hlength]) fun k hk hk' => ?_
  have hlt : k < r.toNat := by simpa using hk'
  simp only [List.getElem_map, List.getElem_take, List.getElem_range]
  rw [resizedEntry_of_lt hi (by omega)]

theorem isColumn_widened (hq : q.isFloat) (hlength : columns[i].length ≤ r.toNat) :
    IsColumn columns q r i ((columns[i] ++ (List.range' columns[i].length (r.toNat - columns[i].length)).map
      fun k => Expr.identityEntry q k i).map settled) := by
  refine ⟨fun x hx => ?_, ?_⟩
  · obtain ⟨y, hy, rfl⟩ := List.mem_map.mp hx
    rw [type_settled]
    rcases List.mem_append.mp hy with hy | hy
    · exact htypes y hy
    · obtain ⟨k, -, rfl⟩ := List.mem_map.mp hy
      exact type_scalar hq _
  · rw [List.map_map, funext (f := settled ∘ settled) settled_settled]
    refine List.ext_getElem (by simp [hlength]) fun k hk hk' => ?_
    simp only [List.getElem_map, List.getElem_range]
    by_cases hold : k < columns[i].length
    · rw [List.getElem_append_left hold, resizedEntry_of_lt hi hold]
    · have hnone : (columns[i]? >>= (·[k]?)) = none := by
        rw [List.getElem?_eq_getElem hi]
        exact List.getElem?_eq_none (by omega)
      rw [List.getElem_append_right (by omega), List.getElem_map, List.getElem_range', resizedEntry_of_le hnone]
      congr 2
      omega

end

theorem index_matrix (hi : i < columns.length) : (matrix columns).index i = .ok (.vector columns[i]) := by
  have hfound : (if (i : Int) < 0 then none else columns[(i : Int).toNat]?) = some columns[i] := by
    rw [if_neg (by omega), Int.toNat_natCast, List.getElem?_eq_getElem hi]
  rw [index, index.element, hfound]

theorem pieces_flatten {n : Nat} {cols : List (List Value)} (h : ∀ col ∈ cols, col.length = n) :
    pieces n cols.length cols.flatten = cols := by
  induction cols with
  | nil => rfl
  | cons col cols ih =>
    rw [List.forall_mem_cons] at h
    rw [List.length_cons, pieces, List.flatten_cons, ← h.1, List.take_left, List.drop_left, h.1, ih h.2]

theorem flatMap_spread (h : ∀ v ∈ vs, v.type = .prim q) : vs.flatMap spread = vs := by
  induction vs with
  | nil => rfl
  | cons v vs ih =>
    rw [List.forall_mem_cons] at h
    rw [List.flatMap_cons, ih h.2, spread_of_isScalar (isScalar_of_type h.1)]
    rfl

/-- Two or more numbers are a vector. -/
theorem castVector_eq {args : List Value} (hq : q.isFloat) (hr : Ty.IsSize r) (hargs : args.flatMap spread = vs)
    (hvs : ∀ v ∈ vs, v.type = .prim q) (hlength : vs.length = r.toNat) :
    castVector r q args = .ok (vs.map settled) := by
  have htwo : 2 ≤ vs.length := hlength ▸ UInt32.le_iff_toNat_le.mp hr.1
  unfold castVector
  rw [hargs]
  match vs, htwo with
  | v :: w :: rest, _ =>
    show (if (v :: w :: rest).length ≠ r.toNat then _ else _) = _
    rw [if_neg (not_not_intro hlength)]
    exact mapM_convert hq hvs

/-- The first components of a vector. -/
theorem swizzle_take (hr : 2 ≤ r.toNat) (hlength : r.toNat ≤ vs.length) :
    (vector vs).swizzle ((List.range r.toNat).map Nat.toUInt32) = .ok (.vector (vs.take r.toNat)) := by
  have htake : (vs.take r.toNat).length = r.toNat := by rw [List.length_take, min_eq_left hlength]
  rw [swizzle_eq_ok_iff (.inr ⟨_, rfl⟩)]
  refine ⟨_, ?_, (gathered_of_ne_one (by omega)).symm⟩
  rw [Picks, List.forall₂_map_left_iff, List.forall₂_iff_get]
  refine ⟨by rw [List.length_range, htake], fun k hk hk' => ?_⟩
  have hkr : k < r.toNat := by simpa using hk
  have hr32 := r.toNat_lt
  simp only [List.get_eq_getElem, List.getElem_range, List.getElem_take, Nat.toUInt32,
    UInt32.toNat_ofNat_of_lt' (show k < 2 ^ 32 by omega)]
  exact List.getElem?_eq_getElem (show k < vs.length by omega)

/-- A vector that is made longer by numbers. -/
theorem cast_widened {added : List Value} (hq : q.isFloat) (hr : Ty.IsSize r) (hvs : ∀ v ∈ vs, v.type = .prim q)
    (hadded : ∀ v ∈ added, v.type = .prim q) (hlength : vs.length + added.length = r.toNat) :
    cast (.vector r q) (.vector vs :: added) = .ok (.vector ((vs ++ added).map settled)) := by
  refine bind_ok.mpr ⟨_, castVector_eq hq hr ?_ ?_ ?_, rfl⟩
  · rw [List.flatMap_cons, flatMap_spread hadded]
    rfl
  · exact fun v hv => (List.mem_append.mp hv).elim (hvs v) (hadded v)
  · rw [List.length_append, hlength]

/-- A matrix is built from its columns. -/
theorem cast_columns (hq : q.isFloat) (hc : Ty.IsSize c) (hr : Ty.IsSize r) {cols : List (List Value)}
    (hlength : cols.length = c.toNat)
    (hcols : ∀ col ∈ cols, col.length = r.toNat ∧ ∀ v ∈ col, v.type = .prim q) :
    cast (.matrix c r q) (cols.map .vector) = .ok (.matrix (cols.map (·.map settled))) := by
  have htwo : 2 ≤ cols.length := hlength ▸ UInt32.le_iff_toNat_le.mp hc.1
  have hspread : (cols.map vector).flatMap spread = cols.flatten := by
    rw [List.flatMap_map]
    exact List.flatMap_id ..
  have hsize : cols.flatten.length = (c * r).toNat := by
    have hc4 := UInt32.le_iff_toNat_le.mp hc.2
    have hr4 := UInt32.le_iff_toNat_le.mp hr.2
    have hsmall : c.toNat * r.toNat ≤ 4 * 4 := Nat.mul_le_mul hc4 hr4
    rw [UInt32.toNat_mul, Nat.mod_eq_of_lt (by omega), List.length_flatten, ← hlength]
    have hall : cols.map List.length = List.replicate cols.length r.toNat := by
      rw [List.eq_replicate_iff]
      exact ⟨List.length_map .., fun n hn => by obtain ⟨col, hcol, rfl⟩ := List.mem_map.mp hn; exact (hcols col hcol).1⟩
    rw [hall, List.sum_replicate]
    rfl
  have hpieces : (pieces r.toNat c.toNat cols.flatten).mapM (castVector r q) = .ok (cols.map (·.map settled)) := by
    rw [← hlength, pieces_flatten fun col hcol => (hcols col hcol).1, mapM_eq_ok_iff, List.forall₂_map_right_iff,
      List.forall₂_same]
    exact fun col hcol => castVector_eq hq hr (flatMap_spread (hcols col hcol).2) (hcols col hcol).2 (hcols col hcol).1
  have hvectors : (cols.map vector).any isMatrix = false := by
    rw [List.any_map, List.any_eq_false]
    exact fun _ _ => nofun
  have hone (cols' : List (List Value)) : cols.map vector ≠ [.matrix cols'] := by
    intro h
    have := congrArg List.length h
    rw [List.length_map, List.length_singleton] at this
    omega
  unfold cast
  split
  case h_4 => exact (hone _ ‹_›).elim
  case h_5 hmatrix _ =>
    cases hmatrix
    dsimp only
    rw [hvectors, hspread, hsize]
    simp only [ne_eq, not_true_eq_false, Bool.false_eq_true, if_false]
    exact bind_ok.mpr ⟨_, hpieces, rfl⟩
  case h_6 hother _ _ => exact (hother _ _ _ rfl).elim
  all_goals contradiction

end Value

namespace Expr

/-- A way to evaluate expressions, as far as it has to do with matrices and their columns. -/
structure Evaluator (D : Expr → Value → Prop) : Prop where
  literal (i : ExprInfo) (v : Value) : D (.literal i v) v
  index {i : ExprInfo} {base : Expr} {v w : Value} (span : Span) (n : Int32) :
    D base v → v.index n.toInt = .ok w → D (.index i base [ofValue span (.i32 n)]) w
  swizzle {i : ExprInfo} {base : Expr} {v w : Value} (s : Selector) :
    D base v → v.swizzle s.components = .ok w → D (.swizzle i base s) w
  cast {i : ExprInfo} {args : List Expr} {vs : List Value} {w : Value} (span : Span) (t : Ty) :
    List.Forall₂ D args vs → Value.cast t vs = .ok w → D (.cast i (ofType span t) args) w

theorem evaluateAll_ok {lookup : Int → Option Value} {args : List Expr} {vs : List Value}
    (h : List.Forall₂ (fun e v => e.evaluate lookup = .ok v) args vs) : evaluateAll lookup args = .ok vs := by
  induction h with
  | nil => rfl
  | cons hv _ ih => rw [evaluateAll, hv, ih]; rfl

theorem evaluator_evaluate (lookup : Int → Option Value) : Evaluator fun e v => e.evaluate lookup = .ok v where
  literal i v := rfl
  index span n hv hw := by
    rw [evaluate, hv]
    show (Value.index _ _ >>= fun w => evaluateIndices lookup w []) = _
    rw [hw]
    rfl
  swizzle s hv hw := by
    rw [evaluate, hv]
    exact hw
  cast span t hvs hw := by
    rw [ofType, evaluate, evaluateAll_ok hvs]
    exact hw

section

variable (M : Meaning.Machine) (call : Int → List Meaning.Datum → Meaning.Run Meaning.Datum) (σ : Meaning.Store)

theorem evalAll_plain {args : List Expr} {vs : List Value}
    (h : List.Forall₂ (fun e v => Meaning.eval M call e σ = some (.ok (.plain v), σ)) args vs) :
    Meaning.evalAll M call args σ = some (.ok (vs.map .plain), σ) := by
  induction h with
  | nil => rfl
  | cons hv _ ih =>
    rw [Meaning.evalAll, Meaning.bind_of_ok hv, Meaning.bind_of_ok ih]
    rfl

theorem cast_plain (span : Span) {t : Ty} {vs : List Value} {w : Value} (h : Value.cast t vs = .ok w) :
    Meaning.Datum.cast (ofType span t) (vs.map .plain) = some (.plain w) := by
  have hvs : (vs.map Meaning.Datum.plain).mapM Meaning.Datum.value? = some vs := by
    clear h
    induction vs with
    | nil => rfl
    | cons v vs ih => rw [List.map_cons, List.mapM_cons, ih]; rfl
  have hplain : (do
      let vs ← (vs.map Meaning.Datum.plain).mapM Meaning.Datum.value?
      return Meaning.Datum.plain (← (Value.cast t vs).toOption)) = some (.plain w) := by
    rw [hvs]
    show (Value.cast t vs).toOption >>= _ = _
    rw [h]
    rfl
  cases t with
  | array | struct => cases h
  | _ => exact hplain

theorem evaluator_run : Evaluator fun e v => Meaning.eval M call e σ = some (.ok (.plain v), σ) where
  literal i v := rfl
  index span n hv hw := by
    have hpath : Meaning.items M call [ofValue span (.i32 n)] σ = some (.ok [.item n.toInt], σ) := rfl
    rw [Meaning.eval, Meaning.bind_of_ok hv, Meaning.bind_of_ok hpath]
    show Meaning.orFault (Meaning.Datum.part? _ (.item n.toInt) >>= pure) σ = _
    rw [Meaning.Datum.part?, hw]
    rfl
  swizzle s hv hw := by
    rw [Meaning.eval, Meaning.bind_of_ok hv, Meaning.Datum.part?, hw]
    rfl
  cast span t hvs hw := by
    rw [Meaning.eval, Meaning.bind_of_ok (evalAll_plain M call σ hvs), cast_plain span hw]
    rfl

end

section

variable {D : Expr → Value → Prop} {read : Expr} {c r d s : UInt32} {q : Primitive} {columns : List (List Value)}

/-- What a column evaluates to. -/
theorem Evaluator.column (hD : Evaluator D) (span : Span) (hread : D read (.matrix columns))
    (hmatrix : (Value.matrix columns).HasType (.matrix d s q)) (hq : q.isFloat) (hr : Ty.IsSize r) (hd : Ty.IsSize d) (i : Nat) :
    ∃ col, D (resizedColumn span read d s r q q i) (.vector col) ∧ Value.IsColumn columns q r i col := by
  obtain ⟨_, heq, hlength, hcolumns⟩ := hmatrix
  cases heq
  have hr2 := UInt32.le_iff_toNat_le.mp hr.1
  have hr4 := UInt32.le_iff_toNat_le.mp hr.2
  have hd4 := UInt32.le_iff_toNat_le.mp hd.2
  have htwo : (2 : UInt32).toNat = 2 := rfl
  have hfour : (4 : UInt32).toNat = 4 := rfl
  unfold resizedColumn
  split
  · rename_i hnew
    exact ⟨_, hD.literal _ _, Value.isColumn_identity hq (hlength ▸ hnew)⟩
  · rename_i hold
    have hi : i < columns.length := by omega
    obtain ⟨hsize, htypes⟩ := hcolumns columns[i] (List.getElem_mem hi)
    have hcolumn : D (.index ⟨span, .vector s q⟩ read [ofValue span (.i32 (Int32.ofNat i))]) (.vector columns[i]) := by
      refine hD.index span _ hread ?_
      rw [Int32.toInt_ofNat_of_lt (by omega)]
      exact Value.index_matrix hi
    dsimp only
    split
    · rename_i hrows
      have hkept : columns[i].take r.toNat = columns[i] := List.take_of_length_le (by rw [hsize, hrows])
      exact ⟨_, hcolumn, hkept ▸ Value.isColumn_narrowed (r := r) hi htypes (by rw [hsize, hrows])⟩
    split
    · rename_i hrows
      have hlt := UInt32.lt_iff_toNat_lt.mp hrows
      refine ⟨_, hD.swizzle _ hcolumn ?_, Value.isColumn_narrowed (r := r) hi htypes (by omega)⟩
      rw [Check.components_ofList (by rw [List.length_map, List.length_range]; omega)]
      exact Value.swizzle_take (by omega) (by omega)
    · rename_i hsame hrows
      have hlt : s.toNat < r.toNat := by
        have hne : r.toNat ≠ s.toNat := fun h => hsame (UInt32.toNat_inj.mp h)
        rw [UInt32.lt_iff_toNat_lt] at hrows
        omega
      let added := (List.range' s.toNat (r.toNat - s.toNat)).map fun k => identityEntry q k i
      have htypes' : ∀ v ∈ added, v.type = .prim q := by
        intro v hv
        obtain ⟨k, -, rfl⟩ := List.mem_map.mp hv
        exact Value.type_scalar hq _
      have hadded : List.Forall₂ D ((List.range' s.toNat (r.toNat - s.toNat)).map fun k => ofValue span (identityEntry q k i))
          added := by
        rw [List.forall₂_map_left_iff, List.forall₂_map_right_iff, List.forall₂_same]
        exact fun k _ => hD.literal _ _
      have hlength : columns[i].length + added.length = r.toNat := by
        rw [hsize, List.length_map, List.length_range']
        omega
      have hwidened := Value.isColumn_widened (r := r) hi htypes hq (by omega)
      rw [hsize] at hwidened
      exact ⟨_, hD.cast span _ (.cons hcolumn hadded) (Value.cast_widened hq hr htypes htypes' hlength), hwidened⟩

/-- What the matrix that is built evaluates to. -/
theorem Evaluator.matrix (hD : Evaluator D) (span : Span) (hread : D read (.matrix columns))
    (hmatrix : (Value.matrix columns).HasType (.matrix d s q)) (hq : q.isFloat) (hc : Ty.IsSize c) (hr : Ty.IsSize r)
    (hd : Ty.IsSize d) : D (resizedMatrix span read d s q c r q) (Value.resized columns c r q) := by
  choose col hcol hcolumn using hD.column span hread hmatrix hq hr hd
  have hcast : Value.cast (.matrix c r q) (((List.range c.toNat).map col).map .vector) =
      .ok (.matrix (((List.range c.toNat).map col).map (·.map Value.settled))) := by
    refine Value.cast_columns hq hc hr (by rw [List.length_map, List.length_range]) fun x hx => ?_
    obtain ⟨i, -, rfl⟩ := List.mem_map.mp hx
    exact ⟨(hcolumn i).length, (hcolumn i).1⟩
  have hcolumns : ((List.range c.toNat).map col).map (·.map Value.settled) =
      (List.range c.toNat).map fun i => (List.range r.toNat).map fun j => (Value.resizedEntry columns q i j).settled := by
    rw [List.map_map]
    exact List.map_congr_left fun i _ => (hcolumn i).2
  rw [Value.resized, ← hcolumns]
  refine hD.cast span _ ?_ hcast
  rw [List.map_map, List.forall₂_map_left_iff, List.forall₂_map_right_iff, List.forall₂_same]
  exact fun i _ => hcol i

end

end Expr

namespace Check

/-- The expansion of a matrix cast reads its argument, or the temporary variable that holds it. It is consistent
at every node, and evaluates to the matrix in its new shape, at compile time and at run time. -/
theorem expandMatrix_faithful (span : Span) {arg : Expr} {c r d s : UInt32} {q : Primitive} (hc : Ty.IsSize c)
    (hr : Ty.IsSize r) (hsource : (Ty.matrix d s q).Proper) (harg : arg.type = .matrix d s q) (site : Site) (σ : State) :
    ∃ e σ' read, expandMatrix span arg c r q d s q site σ = .ok (e, σ') ∧
      ((arg.isPlace ∨ ¬ site.hoisting ∨ site.function = none) ∧ read = arg ∧ σ' = σ ∨
        arg.isPlace = false ∧ read = .ofVar arg.span σ.session.nextVar (.matrix d s q) ∧ Hoists σ σ' [.letVar arg.span
          { name := Supply.tempName "matrix" σ.draft.temporaries, type := .ofType arg.span (.matrix d s q),
            init := arg, id := σ.session.nextVar }]) ∧
      e.type = .matrix c r q ∧ (∀ p, read.Checked p → e.Checked p) ∧
      ∀ columns, (Value.matrix columns).HasType (.matrix d s q) →
        Value.resize columns c r q = .ok (Value.resized columns c r q) ∧
        (∀ lookup, read.evaluate lookup = .ok (.matrix columns) →
          e.evaluate lookup = .ok (Value.resized columns c r q)) ∧
        ∀ M call τ, Meaning.eval M call read τ = some (.ok (.plain (.matrix columns)), τ) →
          Meaning.eval M call e τ = some (.ok (.plain (Value.resized columns c r q)), τ) := by
  obtain ⟨hd, -, hq⟩ := hsource
  have result {read : Expr} (hread : read.type = .matrix d s q) :
      (∀ p, read.Checked p → (Expr.resizedMatrix span read d s q c r q).Checked p) ∧
      ∀ columns, (Value.matrix columns).HasType (.matrix d s q) →
        Value.resize columns c r q = .ok (Value.resized columns c r q) ∧
        (∀ lookup, read.evaluate lookup = .ok (.matrix columns) →
          (Expr.resizedMatrix span read d s q c r q).evaluate lookup = .ok (Value.resized columns c r q)) ∧
        ∀ M call τ, Meaning.eval M call read τ = some (.ok (.plain (.matrix columns)), τ) →
          Meaning.eval M call (Expr.resizedMatrix span read d s q c r q) τ =
            some (.ok (.plain (Value.resized columns c r q)), τ) := by
    refine ⟨fun p hp => Expr.checked_resizedMatrix span hp hread hc hr, fun columns hcolumns => ⟨?_, ?_, ?_⟩⟩
    · obtain ⟨_, heq, -, htypes⟩ := hcolumns
      cases heq
      exact Value.resize_eq hq fun col hcol => (htypes col hcol).2
    · exact fun lookup hlookup => (Expr.evaluator_evaluate lookup).matrix span hlookup hcolumns hq hc hr hd
    · exact fun M call τ heval => (Expr.evaluator_run M call τ).matrix span heval hcolumns hq hc hr hd
  by_cases hhoist : (!arg.isPlace && site.hoisting && site.function.isSome) = true
  · obtain ⟨⟨source, σ'⟩, hrun⟩ : ∃ o, hoist "matrix" (.matrix d s q) arg site σ = .ok o := ⟨_, rfl⟩
    obtain ⟨rfl, hhoists⟩ := hoist_ok hrun
    have hplace : arg.isPlace = false := by simp only [Bool.and_eq_true, Bool.not_eq_true'] at hhoist; exact hhoist.1.1
    refine ⟨_, σ', _, ?_, .inr ⟨hplace, rfl, hhoists⟩, rfl, result rfl⟩
    refine bind_ok.mpr ⟨site, σ, rfl, ?_⟩
    rw [if_pos hhoist]
    exact bind_ok.mpr ⟨_, σ', hrun, rfl⟩
  · have hstays : arg.isPlace ∨ ¬ site.hoisting ∨ site.function = none := by
      simp only [Bool.and_eq_true, Bool.not_eq_true', Option.isSome_iff_ne_none] at hhoist
      grind
    refine ⟨_, σ, arg, ?_, .inl ⟨hstays, rfl, rfl⟩, rfl, result harg⟩
    refine bind_ok.mpr ⟨site, σ, rfl, ?_⟩
    rw [if_neg hhoist]
    rfl

theorem expandMatrix_faithful_widened :
    let columns : List (List Value) := [[.f64 ⟨5⟩, .f64 ⟨6⟩], [.f64 ⟨7⟩, .f64 ⟨8⟩]]
    let zero : Value := .scalar .f64 false
    let arg := Expr.ofValue {} (.matrix columns)
    Ty.IsSize 3 ∧ (Ty.matrix 2 2 .f64).Proper ∧ arg.type = .matrix 2 2 .f64 ∧
      ∃ e σ', expandMatrix {} arg 3 3 .f64 2 2 .f64 { settings := {} } { session := {} } = .ok (e, σ') ∧
        e.type = .matrix 3 3 .f64 ∧ e.evaluate (fun _ => none) = .ok (.matrix
          [[.f64 ⟨5⟩, .f64 ⟨6⟩, zero], [.f64 ⟨7⟩, .f64 ⟨8⟩, zero], [zero, zero, .scalar .f64 true]]) := by
  intro columns zero arg
  have hsize : Ty.IsSize 3 := ⟨by decide, by decide⟩
  have hproper : (Ty.matrix 2 2 .f64).Proper := ⟨⟨by decide, by decide⟩, ⟨by decide, by decide⟩, rfl⟩
  have htype : arg.type = .matrix 2 2 .f64 := rfl
  have hcolumns : (Value.matrix columns).HasType (.matrix 2 2 .f64) :=
    ⟨columns, rfl, rfl, by simp [columns, Value.type]⟩
  obtain ⟨e, σ', read, hrun, hread, hresult, -, hvalues⟩ :=
    expandMatrix_faithful {} hsize hsize hproper htype { settings := {} } { session := {} }
  refine ⟨hsize, hproper, htype, e, σ', hrun, hresult, ?_⟩
  obtain ⟨-, rfl, -⟩ | ⟨hplace, -⟩ := hread
  · exact (hvalues columns hcolumns).2.1 _ rfl
  · cases hplace

end Check

end Shading
