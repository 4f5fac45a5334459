import Shading.Module.Equality
import Shading.Proofs.Wire.Code
import Shading.Proofs.Wire.Reading

/-! A module is read back from its binary form as it was. How deeply its nodes are nested is counted as a reader does
it: every type, value, expression, statement and module is one level below the node that holds it, places that are
left empty included. -/
namespace Shading

namespace Ty

mutual

def depth : Ty → Nat
  | .array t _ => t.depth + 1
  | .struct r | .uniform r | .storage r => membersDepth r.members + 1
  | .func _ _ params result => max (listDepth params) result.depth + 1
  | _ => 1

def listDepth : List Ty → Nat
  | [] => 0
  | t :: ts => max t.depth (listDepth ts)

def membersDepth : List (Text × Ty) → Nat
  | [] => 0
  | (_, t) :: ms => max t.depth (membersDepth ms)

end

end Ty

namespace Value

mutual

/-- The columns of a matrix count as vectors. -/
def depth : Value → Nat
  | .vector cs => listDepth cs + 1
  | .matrix cols => columnsDepth cols + 1
  | _ => 1

def listDepth : List Value → Nat
  | [] => 0
  | v :: vs => max v.depth (listDepth vs)

def columnsDepth : List (List Value) → Nat
  | [] => 0
  | c :: cs => max (listDepth c + 1) (columnsDepth cs)

end

end Value

namespace Expr

mutual

def depth : Expr → Nat
  | .absent => 1
  | .literal i v => max i.type.depth v.depth + 1
  | .binary i _ l r | .assign i _ l r => max i.type.depth (max l.depth r.depth) + 1
  | .unary i _ e | .member i e _ | .swizzle i e _ => max i.type.depth e.depth + 1
  | .cast i e es | .index i e es | .call i e es | .method i e _ es =>
    max i.type.depth (max e.depth (listDepth es)) + 1
  | .ternary i c t f => max i.type.depth (max c.depth (max t.depth f.depth)) + 1
  | .intrinsic i _ es => max i.type.depth (listDepth es) + 1
  | .typeRef i t => max i.type.depth t.depth + 1
  | .name i _ | .var i _ | .const i _ | .function i _ | .intrinsicRef i _ | .structRef i _ =>
    i.type.depth + 1

def listDepth : List Expr → Nat
  | [] => 0
  | e :: es => max e.depth (listDepth es)

end

mutual

/-- Does no component selector count more than four components? -/
def selectorsFit : Expr → Bool
  | .swizzle _ e s => s.count ≤ 4 && e.selectorsFit
  | .binary _ _ l r | .assign _ _ l r => l.selectorsFit && r.selectorsFit
  | .unary _ _ e | .member _ e _ => e.selectorsFit
  | .cast _ e es | .index _ e es | .call _ e es | .method _ e _ es =>
    e.selectorsFit && listSelectorsFit es
  | .ternary _ c t f => c.selectorsFit && t.selectorsFit && f.selectorsFit
  | .intrinsic _ _ es => listSelectorsFit es
  | _ => true

def listSelectorsFit : List Expr → Bool
  | [] => true
  | e :: es => e.selectorsFit && listSelectorsFit es

end

theorem listDepth_le {es : List Expr} {n : Nat} : listDepth es ≤ n ↔ ∀ e ∈ es, e.depth ≤ n := by
  induction es with
  | nil => simp [listDepth]
  | cons e es ih => rw [listDepth, Nat.max_le, ih, List.forall_mem_cons]

end Expr

def StructMember.exprs (m : StructMember) : List Expr :=
  [m.type, m.builtin.expr, m.location.expr, m.cond]

def External.exprs (v : External) : List Expr := [v.type, v.set.expr, v.binding.expr]

def FnHead.exprs (h : FnHead) : List Expr :=
  h.params.map (·.type) ++
    [h.result, h.stage.expr, h.earlyTests.expr, h.depthWrite.expr, h.workgroup.expr, h.exported.expr]

def RangeHead.exprs (h : RangeHead) : List Expr := [h.unroll.expr, h.start, h.stop, h.step]

def EachHead.exprs (h : EachHead) : List Expr := [h.unroll.expr, h.array]

namespace Stmt

mutual

/-- The outermost expressions in a statement and in the statements that it holds. -/
def exprs : Stmt → List Expr
  | .expr _ e | .returnWith _ e => [e]
  | .letVar _ d => [d.type, d.init]
  | .const _ d => [d.exported.expr, d.type, d.value]
  | .alias _ d => [d.exported.expr, d.target]
  | .option _ d => [d.type, d.default]
  | .struct _ d => d.exported.expr :: d.layout.expr :: d.members.flatMap StructMember.exprs
  | .function _ h body => h.exprs ++ listExprs body
  | .external _ set vars => set.expr :: vars.flatMap External.exprs
  | .branch _ _ arms other => armsExprs arms ++ other.exprs
  | .conditional _ c body => c :: body.exprs
  | .forRange _ h body => h.exprs ++ body.exprs
  | .forEach _ h body => h.exprs ++ body.exprs
  | .loop _ c u body => u.expr :: c :: body.exprs
  | .multi _ body => listExprs body
  | .scoped _ body => body.exprs
  | .absent | .discard _ | .breakLoop _ | .continueLoop _ | .importFrom .. | .noOp _ => []

def listExprs : List Stmt → List Expr
  | [] => []
  | s :: ss => s.exprs ++ listExprs ss

def armsExprs : List (Expr × Stmt) → List Expr
  | [] => []
  | (c, s) :: arms => c :: (s.exprs ++ armsExprs arms)

end

mutual

def depth : Stmt → Nat
  | .function _ h body => max (Expr.listDepth h.exprs) (listDepth body) + 1
  | .branch _ _ arms other => max (armsDepth arms) other.depth + 1
  | .conditional _ c body => max c.depth body.depth + 1
  | .forRange _ h body => max (Expr.listDepth h.exprs) body.depth + 1
  | .forEach _ h body => max (Expr.listDepth h.exprs) body.depth + 1
  | .loop _ c u body => max (Expr.listDepth [u.expr, c]) body.depth + 1
  | .multi _ body => listDepth body + 1
  | .scoped _ body => body.depth + 1
  | s => Expr.listDepth s.exprs + 1

def listDepth : List Stmt → Nat
  | [] => 0
  | s :: ss => max s.depth (listDepth ss)

def armsDepth : List (Expr × Stmt) → Nat
  | [] => 0
  | (c, s) :: arms => max (max c.depth s.depth) (armsDepth arms)

end

end Stmt

namespace Module

mutual

/-- The outermost expressions in a module and in those that it imports. -/
def exprs : Module → List Expr
  | ⟨_, is, root⟩ => importedExprs is ++ (root.elim [] fun b => b.toStmt.exprs)

def importedExprs : List (Text × Module) → List Expr
  | [] => []
  | (_, m) :: ms => m.exprs ++ importedExprs ms

end

mutual

def depth : Module → Nat
  | ⟨_, is, root⟩ => max (importedDepth is) (root.elim 1 fun b => b.toStmt.depth) + 1

def importedDepth : List (Text × Module) → Nat
  | [] => 0
  | (_, m) :: ms => max m.depth (importedDepth ms)

end

end Module

namespace Wire

namespace Encoder

theorem types_eq_flatMap (ts : List Ty) : types ts = ts.flatMap type := by
  induction ts with
  | nil => rfl
  | cons t ts ih => simp [types, ih]

theorem members_eq_flatMap (ms : List (Text × Ty)) :
    members ms = ms.flatMap fun m => .text m.1 :: type m.2 := by
  induction ms with
  | nil => rfl
  | cons m ms ih => simp [members, ih]

theorem values_eq_flatMap (vs : List Value) : values vs = vs.flatMap value := by
  induction vs with
  | nil => rfl
  | cons v vs ih => simp [values, ih]

theorem columns_eq_flatMap (cols : List (List Value)) :
    columns cols = cols.flatMap fun c => value (.vector c) := by
  induction cols with
  | nil => rfl
  | cons c cols ih => simp [columns, value, ih]

theorem exprs_eq_flatMap (es : List Expr) : exprs es = es.flatMap expr := by
  induction es with
  | nil => rfl
  | cons e es ih => simp [exprs, ih]

theorem stmts_eq_flatMap (ss : List Stmt) : stmts ss = ss.flatMap stmt := by
  induction ss with
  | nil => rfl
  | cons s ss ih => simp [stmts, ih]

theorem arms_eq_flatMap (as : List (Expr × Stmt)) :
    arms as = as.flatMap fun a => expr a.1 ++ stmt a.2 := by
  induction as with
  | nil => rfl
  | cons a as ih => simp [arms, ih]

theorem imports_eq_flatMap (ms : List (Text × Module)) :
    imports ms = ms.flatMap fun m => .text m.1 :: moduleTree m.2 := by
  induction ms with
  | nil => rfl
  | cons m ms ih => simp [imports, ih]

theorem type_ne_nil (t : Ty) : type t ≠ [] := by
  cases t <;> simp [type]

theorem value_ne_nil (v : Value) : value v ≠ [] := by
  cases v <;> simp [value]

theorem expr_ne_nil (e : Expr) : expr e ≠ [] := by
  cases e <;> simp [expr, exprInfo]

theorem stmt_ne_nil (s : Stmt) : stmt s ≠ [] := by
  cases s <;> simp [stmt]

end Encoder

namespace Decoder.Reads

variable {table : List Text}

theorem primitive (p : Primitive) : Reads table Decoder.primitive [.byte p.code] p :=
  .cons (byte _) <| .done (by simp)

theorem record {d : Decoder Ty} (r : Record Ty)
    (h : ∀ m ∈ r.members, Reads table d (Encoder.type m.2) m.2) :
    Reads table (Decoder.record d)
      (.int r.id :: .text r.name :: .length r.members :: Encoder.members r.members) r := by
  rw [Encoder.members_eq_flatMap]
  refine .cons (int _) <| .cons (text _) <| .last ?_ rfl
  exact list _ (by simp) fun m hm => .cons (text _) <| (h m hm).last rfl

mutual

/-- A type is read back if there are as many levels left as it has. -/
theorem type (t : Ty) (n : Nat) (h : t.depth ≤ n) :
    Reads table (Decoder.type n) (Encoder.type t) t := by
  cases n with
  | zero => cases t <;> simp [Ty.depth] at h
  | succ n =>
    rw [Decoder.type]
    cases t with
    | unknown => exact .cons (byte 0) <| .done rfl
    | prim p => exact .cons (byte 1) <| .cons (primitive p) <| .done rfl
    | vector k p => exact .cons (byte 2) <| .cons (uint32 k) <| .cons (primitive p) <| .done rfl
    | matrix c r p =>
      exact .cons (byte 3) <| .cons (uint32 c) <| .cons (uint32 r) <| .cons (primitive p) <| .done rfl
    | array t k =>
      rw [Ty.depth] at h
      exact .cons (byte 4) <| .cons (uint32 k) <| (type t n (by omega)).last rfl
    | struct r =>
      rw [Ty.depth] at h
      exact .cons (byte 5) <| (record r (members r.members n (by omega))).last rfl
    | sampler d p depth =>
      exact .cons (byte 6) <| .cons (byte _) <| .cons (primitive p) <| .cons (bool depth) <|
        .done (by simp)
    | uniform r =>
      rw [Ty.depth] at h
      exact .cons (byte 7) <| (record r (members r.members n (by omega))).last rfl
    | storage r =>
      rw [Ty.depth] at h
      exact .cons (byte 8) <| (record r (members r.members n (by omega))).last rfl
    | func id name params result =>
      rw [Ty.depth] at h
      have hp := list _ (fun t _ => Encoder.type_ne_nil t) (types params n (by omega))
      rw [← Encoder.types_eq_flatMap] at hp
      exact .cons (byte 9) <| .cons (int id) <| .cons (text name) <| .bind hp <|
        (type result n (by omega)).last rfl
    | intrinsic i => exact .cons (byte 10) <| .cons (byte _) <| .done (by simp)
    | void => exact .cons (byte 11) <| .done rfl

theorem types (ts : List Ty) (n : Nat) (h : Ty.listDepth ts ≤ n) :
    ∀ t ∈ ts, Reads table (Decoder.type n) (Encoder.type t) t := by
  cases ts with
  | nil => simp
  | cons t ts =>
    rw [Ty.listDepth] at h
    have ht := type t n (by omega)
    have hts := types ts n (by omega)
    intro u hu
    rcases List.mem_cons.mp hu with rfl | hu
    · exact ht
    · exact hts u hu

theorem members (ms : List (Text × Ty)) (n : Nat) (h : Ty.membersDepth ms ≤ n) :
    ∀ m ∈ ms, Reads table (Decoder.type n) (Encoder.type m.2) m.2 := by
  cases ms with
  | nil => simp
  | cons m ms =>
    rw [Ty.membersDepth] at h
    have hm := type m.2 n (by omega)
    have hms := members ms n (by omega)
    intro u hu
    rcases List.mem_cons.mp hu with rfl | hu
    · exact hm
    · exact hms u hu

end

theorem column {d : Decoder Value} {cs : List Value}
    (h : Reads table d (Encoder.value (.vector cs)) (.vector cs)) :
    Reads table (Decoder.column d) (Encoder.value (.vector cs)) cs :=
  h.bindNil (.pure cs)

mutual

theorem value (v : Value) (n : Nat) (h : v.depth ≤ n) :
    Reads table (Decoder.value n) (Encoder.value v) v := by
  cases n with
  | zero => cases v <;> simp [Value.depth] at h
  | succ n =>
    rw [Decoder.value]
    cases v with
    | absent => exact .cons (byte 0) <| .done rfl
    | bool b => exact .cons (byte 1) <| .cons (bool b) <| .done rfl
    | i32 k =>
      have hlo := Int32.minValue_le_toInt k
      have hhi := Int32.toInt_le k
      refine .cons (byte 2) <| .cons (int k.toInt) ?_
      rw [if_pos (by rw [Bool.and_eq_true]; exact ⟨decide_eq_true hlo, decide_eq_true hhi⟩)]
      exact .done (by simp)
    | u32 k => exact .cons (byte 3) <| .cons (uint32 k) <| .done rfl
    | f32 x => exact .cons (byte 4) <| .cons (uint32 x.bits) <| .done rfl
    | f64 x => exact .cons (byte 5) <| .cons (uvarint x.toNat) <| .done (by simp [Double.toNat])
    | vector cs =>
      rw [Value.depth] at h
      have hcs := list _ (fun v _ => Encoder.value_ne_nil v) (values cs n (by omega))
      rw [← Encoder.values_eq_flatMap] at hcs
      exact .cons (byte 6) <| hcs.last rfl
    | matrix cols =>
      rw [Value.depth] at h
      have hcols := list _ (fun c _ => Encoder.value_ne_nil (.vector c)) (columns cols n (by omega))
      rw [← Encoder.columns_eq_flatMap] at hcols
      exact .cons (byte 7) <| hcols.last rfl

theorem values (vs : List Value) (n : Nat) (h : Value.listDepth vs ≤ n) :
    ∀ v ∈ vs, Reads table (Decoder.value n) (Encoder.value v) v := by
  cases vs with
  | nil => simp
  | cons v vs =>
    rw [Value.listDepth] at h
    have hv := value v n (by omega)
    have hvs := values vs n (by omega)
    intro u hu
    rcases List.mem_cons.mp hu with rfl | hu
    · exact hv
    · exact hvs u hu

theorem columns (cols : List (List Value)) (n : Nat) (h : Value.columnsDepth cols ≤ n) :
    ∀ c ∈ cols, Reads table (Decoder.column (Decoder.value n)) (Encoder.value (.vector c)) c := by
  cases cols with
  | nil => simp
  | cons c cols =>
    rw [Value.columnsDepth] at h
    -- the column itself is no value of the matrix, so its components are read here
    have hc : Reads table (Decoder.value n) (Encoder.value (.vector c)) (.vector c) := by
      obtain ⟨n, rfl⟩ : ∃ k, n = k + 1 := ⟨n - 1, by omega⟩
      have hcs := list _ (fun v _ => Encoder.value_ne_nil v) (values c n (by omega))
      rw [← Encoder.values_eq_flatMap] at hcs
      rw [Decoder.value]
      exact .cons (byte 6) <| hcs.last rfl
    have hcols := columns cols n (by omega)
    intro u hu
    rcases List.mem_cons.mp hu with rfl | hu
    · exact column hc
    · exact hcols u hu

end

theorem selector (s : Selector) (h : s.count ≤ 4) :
    Reads table Decoder.selector (.ofUInt32 s.count :: s.all.map .ofUInt32) s := by
  refine .cons (uint32 _) <| .cons (uint32 _) <| .cons (uint32 _) <| .cons (uint32 _) <|
    .cons (uint32 _) ?_
  rw [if_neg (by simpa using h)]
  exact .done rfl

theorem nameAt (x : Name) : Reads table Decoder.nameAt (.text x.text :: Encoder.span x.span) x :=
  .cons (text _) <| (span _).last rfl

mutual

theorem expr (e : Expr) (n : Nat) (h : e.depth ≤ n) (hs : e.selectorsFit) :
    Reads table (Decoder.expr n) (Encoder.expr e) e := by
  cases n with
  | zero => cases e <;> simp [Expr.depth] at h
  | succ n =>
    cases e <;>
      simp only [Expr.depth, Expr.selectorsFit, Bool.and_eq_true, decide_eq_true_eq, Encoder.expr,
        Encoder.exprInfo, List.cons_append, List.nil_append, List.append_assoc] at h hs ⊢
    case absent => exact .cons (byte 0) <| .done rfl
    case name i x =>
      exact .cons (byte 1) <| .bind (span _) <| .bind (type i.type n (by omega)) <|
        (text x).last rfl
    case var i id =>
      exact .cons (byte 2) <| .bind (span _) <| .bind (type i.type n (by omega)) <|
        (int id).last rfl
    case const i id =>
      exact .cons (byte 3) <| .bind (span _) <| .bind (type i.type n (by omega)) <|
        (int id).last rfl
    case literal i v =>
      exact .cons (byte 4) <| .bind (span _) <| .bind (type i.type n (by omega)) <|
        (value v n (by omega)).last rfl
    case binary i op l r =>
      exact .cons (byte 5) <| .bind (span _) <| .bind (type i.type n (by omega)) <|
        .cons (byte _) <| .bind (expr l n (by omega) hs.1) <|
        (expr r n (by omega) hs.2).last (by simp)
    case unary i op e =>
      exact .cons (byte 6) <| .bind (span _) <| .bind (type i.type n (by omega)) <|
        .cons (byte _) <| (expr e n (by omega) hs).last (by simp)
    case assign i op l r =>
      exact .cons (byte 7) <| .bind (span _) <| .bind (type i.type n (by omega)) <|
        .cons (byte _) <| .bind (expr l n (by omega) hs.1) <|
        (expr r n (by omega) hs.2).last (by simp)
    case cast i t args =>
      exact .cons (byte 8) <| .bind (span _) <| .bind (type i.type n (by omega)) <|
        .bind (expr t n (by omega) hs.1) <| (exprs args n (by omega) hs.2).last rfl
    case ternary i c t f =>
      exact .cons (byte 9) <| .bind (span _) <| .bind (type i.type n (by omega)) <|
        .bind (expr c n (by omega) hs.1.1) <| .bind (expr t n (by omega) hs.1.2) <|
        (expr f n (by omega) hs.2).last rfl
    case index i b indices =>
      exact .cons (byte 10) <| .bind (span _) <| .bind (type i.type n (by omega)) <|
        .bind (expr b n (by omega) hs.1) <| (exprs indices n (by omega) hs.2).last rfl
    case member i b names =>
      exact .cons (byte 11) <| .bind (span _) <| .bind (type i.type n (by omega)) <|
        .bind (expr b n (by omega) hs) <| (list _ (by simp) fun x _ => nameAt x).last rfl
    case swizzle i b s =>
      exact .cons (byte 12) <| .bind (span _) <| .bind (type i.type n (by omega)) <|
        .bind (selector s hs.1) <| (expr b n (by omega) hs.2).last rfl
    case call i t args =>
      exact .cons (byte 13) <| .bind (span _) <| .bind (type i.type n (by omega)) <|
        .bind (expr t n (by omega) hs.1) <| (exprs args n (by omega) hs.2).last rfl
    case method i o name args =>
      exact .cons (byte 14) <| .bind (span _) <| .bind (type i.type n (by omega)) <|
        .cons (text name) <| .bind (expr o n (by omega) hs.1) <|
        (exprs args n (by omega) hs.2).last rfl
    case intrinsic i f args =>
      exact .cons (byte 15) <| .bind (span _) <| .bind (type i.type n (by omega)) <|
        .cons (byte _) <| (exprs args n (by omega) hs).last (by simp)
    case function i id =>
      exact .cons (byte 16) <| .bind (span _) <| .bind (type i.type n (by omega)) <|
        (int id).last rfl
    case intrinsicRef i f =>
      exact .cons (byte 17) <| .bind (span _) <| .bind (type i.type n (by omega)) <|
        (byte _).last (by simp)
    case structRef i id =>
      exact .cons (byte 18) <| .bind (span _) <| .bind (type i.type n (by omega)) <|
        (int id).last rfl
    case typeRef i t =>
      exact .cons (byte 19) <| .bind (span _) <| .bind (type i.type n (by omega)) <|
        (type t n (by omega)).last rfl
termination_by (n, 0)
decreasing_by all_goals exact .left _ _ (by omega)

theorem exprs (es : List Expr) (n : Nat) (h : Expr.listDepth es ≤ n) (hs : Expr.listSelectorsFit es) :
    Reads table (Decoder.expr n).list (.length es :: Encoder.exprs es) es := by
  rw [Encoder.exprs_eq_flatMap]
  exact list _ (fun e _ => Encoder.expr_ne_nil e) (eachExpr es n h hs)
termination_by (n, sizeOf es + 1)
decreasing_by exact .right _ (Nat.lt_succ_self _)

theorem eachExpr (es : List Expr) (n : Nat) (h : Expr.listDepth es ≤ n)
    (hs : Expr.listSelectorsFit es) :
    ∀ e ∈ es, Reads table (Decoder.expr n) (Encoder.expr e) e := by
  cases es with
  | nil => simp
  | cons e es =>
    rw [Expr.listDepth] at h
    rw [Expr.listSelectorsFit, Bool.and_eq_true] at hs
    have he := expr e n (by omega) hs.1
    have hes := eachExpr es n (by omega) hs.2
    intro u hu
    rcases List.mem_cons.mp hu with rfl | hu
    · exact he
    · exact hes u hu
termination_by (n, sizeOf es)
decreasing_by
  all_goals
    subst_vars
    simp only [List.cons.sizeOf_spec]
    exact .right _ (by omega)

end

section

variable {e : Decoder Expr}

theorem attr {α : Type} {d : Decoder α} {put : α → List Piece} (a : Attr α)
    (hd : ∀ v, Reads table d (put v) v) (he : Reads table e (Encoder.expr a.expr) a.expr) :
    Reads table (Decoder.attr e d) (Encoder.attr put a) a := by
  obtain ⟨x, v⟩ := a
  cases v with
  | none =>
    exact .cons (bool false) <| .bind (.pure none) <| he.last rfl
  | some v =>
    exact .cons (bool true) <| .bind ((hd v).map rfl) <| he.last rfl

theorem structMember (m : StructMember)
    (he : ∀ x ∈ m.exprs, Reads table e (Encoder.expr x) x) :
    Reads table (Decoder.structMember e) (Encoder.structMember m) m := by
  simp only [StructMember.exprs, List.forall_mem_cons] at he
  obtain ⟨htype, hbuiltin, hlocation, hcond, -⟩ := he
  simp only [Encoder.structMember, List.append_assoc, List.cons_append, List.nil_append]
  exact .bind (span _) <| .cons (text _) <| .bind htype <|
    .bind (attr _ (fun b => (byte _).map (by simp)) hbuiltin) <|
    .bind (attr _ uint32 hlocation) <| hcond.last rfl

theorem param (p : FnParam) (he : Reads table e (Encoder.expr p.type) p.type) :
    Reads table (Decoder.param e) (Encoder.param p) p := by
  simp only [Encoder.param, List.append_assoc, List.cons_append, List.nil_append]
  exact .bind (span _) <| .cons (text _) <| .cons (int _) <| he.last rfl

theorem external (v : External) (he : ∀ x ∈ v.exprs, Reads table e (Encoder.expr x) x) :
    Reads table (Decoder.external e) (Encoder.external v) v := by
  simp only [External.exprs, List.forall_mem_cons] at he
  obtain ⟨htype, hset, hbinding, -⟩ := he
  simp only [Encoder.external, List.append_assoc, List.cons_append, List.nil_append]
  exact .bind (span _) <| .cons (text _) <| .cons (int _) <| .bind htype <|
    .bind (attr _ uint32 hset) <| (attr _ uint32 hbinding).last rfl

theorem importItem (i : ImportItem) :
    Reads table Decoder.importItem (Encoder.importItem i) i :=
  .bind (span _) <| .cons (text _) <| (text _).last rfl

theorem sizes (w : UInt32 × UInt32 × UInt32) :
    Reads table Decoder.sizes (Encoder.sizes w) w :=
  .cons (uint32 _) <| .cons (uint32 _) <| (uint32 _).last rfl

theorem head (h : FnHead) (he : ∀ x ∈ h.exprs, Reads table e (Encoder.expr x) x) :
    Reads table (Decoder.head e) (Encoder.head h) h := by
  simp only [FnHead.exprs, List.forall_mem_append, List.forall_mem_map, List.forall_mem_cons] at he
  obtain ⟨hparams, hresult, hstage, hearly, hdepth, hgroup, hexported, -⟩ := he
  simp only [Encoder.head, List.append_assoc, List.cons_append, List.nil_append]
  have hps := list Encoder.param (by simp [Encoder.param, Encoder.span])
    fun p hp => param p (hparams p hp)
  exact .cons (text _) <| .cons (int _) <| .bind hps <| .bind hresult <|
    .bind (attr _ (fun s => (byte _).map (by simp)) hstage) <|
    .bind (attr _ bool hearly) <|
    .bind (attr _ (fun d => (byte _).map (by simp)) hdepth) <|
    .bind (attr _ sizes hgroup) <| (attr _ bool hexported).last rfl

theorem unroll (u : Attr Unroll) (he : Reads table e (Encoder.expr u.expr) u.expr) :
    Reads table (Decoder.unroll e) (Encoder.unroll u) u :=
  attr _ (fun x => (byte _).map (by simp)) he

end

mutual

theorem stmt (s : Stmt) (n : Nat) (h : s.depth ≤ n) (hs : ∀ e ∈ s.exprs, e.selectorsFit) :
    Reads table (Decoder.stmt n) (Encoder.stmt s) s := by
  cases n with
  | zero => cases s <;> simp [Stmt.depth] at h
  | succ n =>
    cases s <;>
      simp only [Stmt.depth, Stmt.exprs, Encoder.stmt, List.cons_append, List.nil_append,
        List.append_assoc, Nat.add_le_add_iff_right, Nat.max_le, Expr.listDepth_le,
        List.forall_mem_cons, List.forall_mem_append] at h hs ⊢
    case absent => exact .cons (byte 0) <| .done rfl
    case expr s e => exact .cons (byte 1) <| .bind (span _) <| (expr e n h.1 hs.1).last rfl
    case letVar s d =>
      exact .cons (byte 2) <| .bind (span _) <| .cons (text _) <| .cons (int _) <|
        .bind (expr d.type n h.1 hs.1) <| (expr d.init n h.2.1 hs.2.1).last rfl
    case const s d =>
      exact .cons (byte 3) <| .bind (span _) <| .cons (text _) <| .cons (int _) <|
        .bind (attr _ bool (expr _ n h.1 hs.1)) <| .bind (expr d.type n h.2.1 hs.2.1) <|
        (expr d.value n h.2.2.1 hs.2.2.1).last rfl
    case «alias» s d =>
      exact .cons (byte 4) <| .bind (span _) <| .cons (text _) <| .cons (int _) <|
        .bind (attr _ bool (expr _ n h.1 hs.1)) <| (expr d.target n h.2.1 hs.2.1).last rfl
    case option s d =>
      exact .cons (byte 5) <| .bind (span _) <| .cons (text _) <| .cons (int _) <|
        .bind (expr d.type n h.1 hs.1) <| (expr d.default n h.2.1 hs.2.1).last rfl
    case struct s d =>
      have hm : Reads table _ _ _ := list Encoder.structMember (by simp [Encoder.structMember, Encoder.span])
        fun m hm => structMember m fun x hx => expr x n
          (h.2.2 x (List.mem_flatMap.mpr ⟨m, hm, hx⟩)) (hs.2.2 x (List.mem_flatMap.mpr ⟨m, hm, hx⟩))
      exact .cons (byte 6) <| .bind (span _) <| .cons (text _) <| .cons (int _) <|
        .bind (attr _ bool (expr _ n h.1 hs.1)) <|
        .bind (attr _ (fun l => (byte _).map (by simp)) (expr _ n h.2.1 hs.2.1)) <| hm.last rfl
    case function s hd body =>
      exact .cons (byte 7) <| .bind (span _) <|
        .bind (head hd fun x hx => expr x n (h.1 x hx) (hs.1 x hx)) <|
        (stmts body n h.2 hs.2).last rfl
    case external s set vars =>
      have hv : Reads table _ _ _ := list Encoder.external (by simp [Encoder.external, Encoder.span])
        fun v hv => external v fun x hx => expr x n
          (h.2 x (List.mem_flatMap.mpr ⟨v, hv, hx⟩)) (hs.2 x (List.mem_flatMap.mpr ⟨v, hv, hx⟩))
      exact .cons (byte 8) <| .bind (span _) <| .bind (attr _ uint32 (expr _ n h.1 hs.1)) <|
        hv.last rfl
    case branch s isConst as other =>
      exact .cons (byte 9) <| .bind (span _) <| .cons (bool _) <| .bind (arms as n h.1 hs.1) <|
        (stmt other n h.2 hs.2).last rfl
    case conditional s c body =>
      exact .cons (byte 10) <| .bind (span _) <| .bind (expr c n h.1 hs.1) <|
        (stmt body n h.2 hs.2).last rfl
    case forRange s hd body =>
      simp only [RangeHead.exprs, List.forall_mem_cons] at h hs
      obtain ⟨⟨hu, hstart, hstop, hstep, -⟩, hbody⟩ := h
      exact .cons (byte 11) <| .bind (span _) <| .cons (text _) <| .cons (int _) <|
        .bind (unroll _ (expr _ n hu hs.1.1)) <| .bind (expr _ n hstart hs.1.2.1) <|
        .bind (expr _ n hstop hs.1.2.2.1) <| .bind (expr _ n hstep hs.1.2.2.2.1) <|
        (stmt body n hbody hs.2).last rfl
    case forEach s hd body =>
      simp only [EachHead.exprs, List.forall_mem_cons] at h hs
      exact .cons (byte 12) <| .bind (span _) <| .cons (text _) <| .cons (int _) <|
        .bind (unroll _ (expr _ n h.1.1 hs.1.1)) <| .bind (expr _ n h.1.2.1 hs.1.2.1) <|
        (stmt body n h.2 hs.2).last rfl
    case loop s c u body =>
      exact .cons (byte 13) <| .bind (span _) <| .bind (unroll _ (expr _ n h.1.1 hs.1)) <|
        .bind (expr c n h.1.2.1 hs.2.1) <| (stmt body n h.2 hs.2.2).last rfl
    case returnWith s e => exact .cons (byte 14) <| .bind (span _) <| (expr e n h.1 hs.1).last rfl
    case discard s => exact .cons (byte 15) <| (span _).last rfl
    case breakLoop s => exact .cons (byte 16) <| (span _).last rfl
    case continueLoop s => exact .cons (byte 17) <| (span _).last rfl
    case importFrom s name items =>
      exact .cons (byte 18) <| .bind (span _) <| .cons (text _) <|
        (list _ (by simp [Encoder.importItem, Encoder.span]) fun i _ => importItem i).last rfl
    case multi s body =>
      exact .cons (byte 19) <| .bind (span _) <| (stmts body n h hs).last rfl
    case «scoped» s body =>
      exact .cons (byte 20) <| .bind (span _) <| (stmt body n h hs).last rfl
    case noOp s => exact .cons (byte 21) <| (span _).last rfl
termination_by (n, 0)
decreasing_by all_goals exact .left _ _ (by omega)

theorem stmts (ss : List Stmt) (n : Nat) (h : Stmt.listDepth ss ≤ n)
    (hs : ∀ e ∈ Stmt.listExprs ss, e.selectorsFit) :
    Reads table (Decoder.stmt n).list (.length ss :: Encoder.stmts ss) ss := by
  rw [Encoder.stmts_eq_flatMap]
  exact list _ (fun s _ => Encoder.stmt_ne_nil s) (eachStmt ss n h hs)
termination_by (n, sizeOf ss + 1)
decreasing_by exact .right _ (Nat.lt_succ_self _)

theorem eachStmt (ss : List Stmt) (n : Nat) (h : Stmt.listDepth ss ≤ n)
    (hs : ∀ e ∈ Stmt.listExprs ss, e.selectorsFit) :
    ∀ s ∈ ss, Reads table (Decoder.stmt n) (Encoder.stmt s) s := by
  cases ss with
  | nil => simp
  | cons s ss =>
    rw [Stmt.listDepth] at h
    rw [Stmt.listExprs, List.forall_mem_append] at hs
    have h₁ : Reads table _ _ _ := stmt s n (by omega) hs.1
    have h₂ := eachStmt ss n (by omega) hs.2
    intro u hu
    rcases List.mem_cons.mp hu with rfl | hu
    · exact h₁
    · exact h₂ u hu
termination_by (n, sizeOf ss)
decreasing_by
  all_goals
    subst_vars
    simp only [List.cons.sizeOf_spec]
    exact .right _ (by omega)

theorem arms (as : List (Expr × Stmt)) (n : Nat) (h : Stmt.armsDepth as ≤ n)
    (hs : ∀ e ∈ Stmt.armsExprs as, e.selectorsFit) :
    Reads table (Decoder.list do return (← Decoder.expr n, ← Decoder.stmt n))
      (.length as :: Encoder.arms as) as := by
  rw [Encoder.arms_eq_flatMap]
  exact list _ (by simp [Encoder.expr_ne_nil]) (eachArm as n h hs)
termination_by (n, sizeOf as + 1)
decreasing_by exact .right _ (Nat.lt_succ_self _)

theorem eachArm (as : List (Expr × Stmt)) (n : Nat) (h : Stmt.armsDepth as ≤ n)
    (hs : ∀ e ∈ Stmt.armsExprs as, e.selectorsFit) :
    ∀ a ∈ as, Reads table (do return (← Decoder.expr n, ← Decoder.stmt n))
      (Encoder.expr a.1 ++ Encoder.stmt a.2) a := by
  cases as with
  | nil => simp
  | cons a as =>
    obtain ⟨c, s⟩ := a
    rw [Stmt.armsDepth] at h
    rw [Stmt.armsExprs, List.forall_mem_cons, List.forall_mem_append] at hs
    have h₁ : Reads table _ _ _ := expr c n (by omega) hs.1
    have h₂ : Reads table _ _ _ := stmt s n (by omega) hs.2.1
    have h₃ := eachArm as n (by omega) hs.2.2
    intro u hu
    rcases List.mem_cons.mp hu with rfl | hu
    · exact .bind h₁ <| h₂.last rfl
    · exact h₃ u hu
termination_by (n, sizeOf as)
decreasing_by
  all_goals
    subst_vars
    simp only [List.cons.sizeOf_spec]
    exact .right _ (by omega)

end

theorem metadata (d : Metadata) :
    Reads table Decoder.metadata (.text d.name :: .ofUInt32 d.version :: .text d.author ::
      .text d.description :: .text d.license :: .length d.imports :: d.imports.map .text) d := by
  have hi : Reads table (Decoder.list Decoder.text) (.length d.imports :: d.imports.map .text)
      d.imports := by
    rw [List.map_eq_flatMap]
    exact list _ (by simp) fun t _ => text t
  exact .cons (text _) <| .cons (uint32 _) <| .cons (text _) <| .cons (text _) <| .cons (text _) <|
    hi.last rfl

mutual

theorem moduleTree (m : Module) (n : Nat) (h : m.depth ≤ n) (hs : ∀ e ∈ m.exprs, e.selectorsFit) :
    Reads table (Decoder.moduleTree n) (Encoder.moduleTree m) m := by
  obtain ⟨md, is, root⟩ := m
  cases n with
  | zero => simp [Module.depth] at h
  | succ n =>
    simp only [Module.depth, Module.exprs, Nat.add_le_add_iff_right, Nat.max_le,
      List.forall_mem_append] at h hs
    have his : Reads table _ _ _ := imports is n h.1 hs.1
    cases md <;> cases root <;>
      simp only [Encoder.moduleTree, Encoder.metadata, List.append_assoc, List.cons_append,
        List.nil_append]
    case none.none =>
      have hroot : Reads table _ _ _ := stmt .absent n h.2 hs.2
      exact .cons (bool false) <| .bind (.pure none) <| .bind his <| hroot.bindNil <| .done rfl
    case none.some b =>
      have hroot : Reads table _ _ _ := stmt b.toStmt n h.2 hs.2
      exact .cons (bool false) <| .bind (.pure none) <| .bind his <| hroot.bindNil <| .done rfl
    case some.none d =>
      have hroot : Reads table _ _ _ := stmt .absent n h.2 hs.2
      exact .cons (bool true) <| .bind ((metadata d).map rfl) <| .bind his <|
        hroot.bindNil <| .done rfl
    case some.some d b =>
      have hroot : Reads table _ _ _ := stmt b.toStmt n h.2 hs.2
      exact .cons (bool true) <| .bind ((metadata d).map rfl) <| .bind his <|
        hroot.bindNil <| .done rfl
termination_by (n, 0)
decreasing_by all_goals exact .left _ _ (by omega)

theorem imports (ms : List (Text × Module)) (n : Nat) (h : Module.importedDepth ms ≤ n)
    (hs : ∀ e ∈ Module.importedExprs ms, e.selectorsFit) :
    Reads table (Decoder.list do return (← Decoder.text, ← Decoder.moduleTree n))
      (.length ms :: Encoder.imports ms) ms := by
  rw [Encoder.imports_eq_flatMap]
  exact list _ (by simp) (eachImport ms n h hs)
termination_by (n, sizeOf ms + 1)
decreasing_by exact .right _ (Nat.lt_succ_self _)

theorem eachImport (ms : List (Text × Module)) (n : Nat) (h : Module.importedDepth ms ≤ n)
    (hs : ∀ e ∈ Module.importedExprs ms, e.selectorsFit) :
    ∀ m ∈ ms, Reads table (do return (← Decoder.text, ← Decoder.moduleTree n))
      (.text m.1 :: Encoder.moduleTree m.2) m := by
  cases ms with
  | nil => simp
  | cons m ms =>
    obtain ⟨name, m⟩ := m
    rw [Module.importedDepth] at h
    rw [Module.importedExprs, List.forall_mem_append] at hs
    have h₁ : Reads table _ _ _ := moduleTree m n (by omega) hs.1
    have h₂ := eachImport ms n (by omega) hs.2
    intro u hu
    rcases List.mem_cons.mp hu with rfl | hu
    · exact .cons (text name) <| h₁.last rfl
    · exact h₂ u hu
termination_by (n, sizeOf ms)
decreasing_by
  all_goals
    subst_vars
    simp only [List.cons.sizeOf_spec]
    exact .right _ (by omega)

end

end Decoder.Reads

end Wire

end Shading
