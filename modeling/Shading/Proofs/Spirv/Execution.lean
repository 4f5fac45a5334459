import Mathlib.Algebra.Group.Int.Defs
import Mathlib.Algebra.Group.Nat.Defs
import Shading.Spirv.Code

/-! What the operations on integers make of words, and that constants are folded to the same. -/
namespace Shading

namespace Spirv

/-- The integer that a word stands for in two's complement. -/
def signed (w : UInt32) : Int := if w.toNat < 2 ^ 31 then w.toNat else w.toNat - 2 ^ 32

/-- What an operation gives. -/
inductive Outcome
  | word (w : UInt32)
  | truth (b : Bool)
deriving DecidableEq, Repr

namespace Opcode

/-- What an operation, which is known by its number, makes of two words. Sums, differences and products keep their low
bits, a signed quotient is truncated, and the signed remainder has the sign of the dividend. There is no outcome where
the format promises none: of a division by zero or with a quotient that does not fit, and of a shift by as many places
as a word has or more. -/
def execute? (op : Opcode) (a b : UInt32) : Option Outcome :=
  match op.code.toNat with
  -- sum, difference and product
  | 128 => some (.word (.ofNat (a.toNat + b.toNat)))
  | 130 => some (.word (.ofInt (a.toNat - b.toNat)))
  | 132 => some (.word (.ofNat (a.toNat * b.toNat)))
  -- quotients, unsigned and signed, and remainders, unsigned and signed
  | 134 => if b.toNat = 0 then none else some (.word (.ofNat (a.toNat / b.toNat)))
  | 135 =>
    if signed b = 0 ∨ signed a = -2 ^ 31 ∧ signed b = -1 then none
    else some (.word (.ofInt ((signed a).tdiv (signed b))))
  | 137 => if b.toNat = 0 then none else some (.word (.ofNat (a.toNat % b.toNat)))
  | 138 =>
    if signed b = 0 ∨ signed a = -2 ^ 31 ∧ signed b = -1 then none
    else some (.word (.ofInt ((signed a).tmod (signed b))))
  -- equality and order, each order unsigned and signed
  | 170 => some (.truth (a.toNat = b.toNat))
  | 171 => some (.truth (a.toNat ≠ b.toNat))
  | 172 => some (.truth (b.toNat < a.toNat))
  | 173 => some (.truth (signed b < signed a))
  | 174 => some (.truth (b.toNat ≤ a.toNat))
  | 175 => some (.truth (signed b ≤ signed a))
  | 176 => some (.truth (a.toNat < b.toNat))
  | 177 => some (.truth (signed a < signed b))
  | 178 => some (.truth (a.toNat ≤ b.toNat))
  | 179 => some (.truth (signed a ≤ signed b))
  -- shifts to the right, without and with the sign, and to the left
  | 194 => if 32 ≤ b.toNat then none else some (.word (.ofNat (a.toNat / 2 ^ b.toNat)))
  | 195 => if 32 ≤ b.toNat then none else some (.word (.ofInt (signed a / 2 ^ b.toNat)))
  | 196 => if 32 ≤ b.toNat then none else some (.word (.ofNat (a.toNat * 2 ^ b.toNat)))
  -- disjunction, exclusive disjunction and conjunction of bits
  | 197 => some (.word (.ofNat (a.toNat ||| b.toNat)))
  | 198 => some (.word (.ofNat (a.toNat ^^^ b.toNat)))
  | 199 => some (.word (.ofNat (a.toNat &&& b.toNat)))
  | _ => none

end Opcode

theorem signed_toUInt32 (x : Int32) : signed x.toUInt32 = x.toInt := by
  have hcond := x.toBitVec.toInt_eq_toNat_cond
  have hcast : x.toBitVec.toNat = x.toUInt32.toNat := rfl
  rw [Int32.toInt_toBitVec, hcast] at hcond
  rw [signed, hcond]
  split <;> split <;> omega

theorem signed_inj {a b : UInt32} : signed a = signed b ↔ a.toNat = b.toNat := by
  have ha := a.toNat_lt
  have hb := b.toNat_lt
  unfold signed
  split <;> split <;> omega

theorem ofInt_natCast_toNat (a : UInt32) : UInt32.ofInt a.toNat = a := by
  rw [← UInt32.toNat_inj, UInt32.ofInt, UInt32.toNat_ofNat']
  have := a.toNat_lt
  omega

theorem ofInt_toInt (x : Int32) : UInt32.ofInt x.toInt = x.toUInt32 := by
  rw [← signed_toUInt32]
  unfold signed
  split
  · exact ofInt_natCast_toNat _
  · rw [Int.sub_eq_add_neg, UInt32.ofInt_add, ofInt_natCast_toNat]
    exact UInt32.add_zero _

theorem ofInt_sub_toNat (a b : UInt32) : UInt32.ofInt (a.toNat - b.toNat) = a - b := by
  rw [Int.sub_eq_add_neg, UInt32.ofInt_add, UInt32.ofInt_neg, ofInt_natCast_toNat, ofInt_natCast_toNat,
    UInt32.sub_eq_add_neg]

section

variable {a b : UInt32}

theorem ofNat_shiftRight (h : b.toNat < 32) : UInt32.ofNat (a.toNat / 2 ^ b.toNat) = a >>> b := by
  have hlt : a.toNat / 2 ^ b.toNat < 2 ^ 32 := Nat.lt_of_le_of_lt (Nat.div_le_self _ _) a.toNat_lt
  rw [← UInt32.toNat_inj, UInt32.toNat_ofNat', Nat.mod_eq_of_lt hlt, UInt32.toNat_shiftRight, Nat.mod_eq_of_lt h,
    Nat.shiftRight_eq_div_pow]

theorem ofNat_shiftLeft (h : b.toNat < 32) : UInt32.ofNat (a.toNat * 2 ^ b.toNat) = a <<< b := by
  rw [← UInt32.toNat_inj, UInt32.toNat_ofNat', UInt32.toNat_shiftLeft, Nat.mod_eq_of_lt h, Nat.shiftLeft_eq]

end

section

variable {x y : Int32}

theorem toInt_quotient (h : ¬(x.toInt = -2 ^ 31 ∧ y.toInt = -1)) : (x / y).toInt = x.toInt.tdiv y.toInt := by
  by_cases hx : x = Int32.minValue
  · apply Int32.toInt_div_of_ne_right
    rintro rfl
    exact h ⟨congrArg Int32.toInt hx, rfl⟩
  · exact Int32.toInt_div_of_ne_left x y hx

/-- A shift by a number of places below the width is one by that number. -/
theorem smod_of_lt (h : 0 ≤ y.toInt) (hlt : y.toInt < 32) : y.toBitVec.smod 32 = y.toBitVec := by
  apply BitVec.eq_of_toInt_eq
  rw [BitVec.toInt_smod, Int32.toInt_toBitVec]
  exact Int.fmod_eq_of_lt h hlt

theorem toNat_eq_of_nonneg (h : 0 ≤ y.toInt) : y.toUInt32.toNat = y.toInt.toNat := by
  have hsigned := signed_toUInt32 y
  have hlt := y.toUInt32.toNat_lt
  unfold signed at hsigned
  split at hsigned <;> omega

theorem toInt_shiftRight (h : 0 ≤ y.toInt) (hlt : y.toInt < 32) :
    (x >>> y).toInt = x.toInt / 2 ^ y.toUInt32.toNat := by
  have hshift : (x >>> y).toBitVec = x.toBitVec.sshiftRight' (y.toBitVec.smod 32) := rfl
  rw [← Int32.toInt_toBitVec, hshift, smod_of_lt h hlt, BitVec.sshiftRight', BitVec.toInt_sshiftRight,
    Int.shiftRight_eq_div_pow, Int32.toInt_toBitVec, Int32.toNat_toBitVec]
  norm_cast

theorem toUInt32_shiftLeft (h : 0 ≤ y.toInt) (hlt : y.toInt < 32) :
    (x <<< y).toUInt32 = x.toUInt32 <<< y.toUInt32 := by
  have hshift : (x <<< y).toBitVec = x.toBitVec <<< y.toBitVec.smod 32 := rfl
  have hnat := toNat_eq_of_nonneg h
  have hplaces : y.toUInt32.toNat % 32 = y.toUInt32.toNat := Nat.mod_eq_of_lt (by omega)
  rw [← UInt32.toNat_inj, ← Int32.toNat_toBitVec, hshift, smod_of_lt h hlt, BitVec.shiftLeft_eq',
    BitVec.toNat_shiftLeft, Int32.toNat_toBitVec, Int32.toNat_toBitVec, UInt32.toNat_shiftLeft, hplaces]

end

end Spirv

namespace BinaryOp

/-- Does the operator apply to integers? -/
def isIntegral : BinaryOp → Bool
  | .and | .or | .reserved _ => false
  | _ => true

/-- How integers compare. -/
def relation? (op : BinaryOp) (m n : Int) : Option Bool :=
  match op with
  | .eq => some (m = n)
  | .ne => some (m ≠ n)
  | .lt => some (m < n)
  | .le => some (m ≤ n)
  | .gt => some (n < m)
  | .ge => some (n ≤ m)
  | _ => none

end BinaryOp

namespace Value

open Spirv (Outcome)

/-- The word of an integer, which is what its declaration holds. -/
def word? : Value → Option UInt32
  | .i32 n => some n.toUInt32
  | .u32 n => some n
  | _ => none

/-- What an operation has to give for a value to be its result. -/
def outcome? : Value → Option Outcome
  | .bool b => some (.truth b)
  | v => v.word?.map .word

theorem compared?_compare (op : BinaryOp) (m n : Int) :
    compared? op (some (compare m n)) = (op.relation? m n).map .bool := by
  have hlt : (some (compare m n) == some .lt) = decide (m < n) := by
    rw [Bool.eq_iff_iff, beq_iff_eq, decide_eq_true_eq, Option.some_inj, Std.compare_eq_lt]
  have heq : (some (compare m n) == some .eq) = decide (m = n) := by
    rw [Bool.eq_iff_iff, beq_iff_eq, decide_eq_true_eq, Option.some_inj, Std.compare_eq_iff_eq]
  have hgt : (some (compare m n) == some .gt) = decide (n < m) := by
    rw [Bool.eq_iff_iff, beq_iff_eq, decide_eq_true_eq, Option.some_inj, Std.compare_eq_gt]
  cases op <;> simp only [compared?, BinaryOp.relation?, Option.map_some, Option.map_none, bne, hlt, heq, hgt]
  case ne => simp
  case le =>
    rw [← Bool.decide_or]
    simp only [Int.le_iff_lt_or_eq]
  case ge =>
    rw [← Bool.decide_or]
    simp only [Int.le_iff_lt_or_eq, eq_comm]

theorem compare_unsigned (a b : UInt32) : compare a b = compare (a.toNat : Int) b.toNat := by
  simp only [compare, compareOfLessAndEq, UInt32.lt_iff_toNat_lt, ← UInt32.toNat_inj, Int.ofNat_lt, Int.ofNat_inj]

theorem compare_signed (x y : Int32) : compare x y = compare x.toInt y.toInt := by
  simp only [compare, compareOfLessAndEq, Int32.lt_iff_toInt_lt, ← Int32.toInt_inj]

end Value

namespace Spirv

open Value

/-- The operation that an operator stands for between scalars. -/
def operation? (op : BinaryOp) (p : Primitive) : Option Opcode :=
  if op.isComparison then comparison? op p
  else if op.isBitwise then some (bitwise op p)
  else some (arithmetic op p)

section

variable {op : BinaryOp}

theorem truth_congr {p q : Prop} [Decidable p] [Decidable q] (h : p ↔ q) :
    some (Outcome.truth p) = some (Outcome.truth q) :=
  congrArg (fun t => some (Outcome.truth t)) (decide_eq_decide.mpr h)

theorem execute_comparison_unsigned (a b : UInt32) :
    (comparison? op .u32).bind (fun o => o.execute? a b) = (op.relation? a.toNat b.toNat).map .truth := by
  cases op
  case eq => exact truth_congr Int.ofNat_inj.symm
  case ne => exact truth_congr (not_congr Int.ofNat_inj.symm)
  case lt | gt => exact truth_congr Int.ofNat_lt.symm
  case le | ge => exact truth_congr Int.ofNat_le.symm
  all_goals rfl

theorem execute_comparison_signed (a b : UInt32) :
    (comparison? op .i32).bind (fun o => o.execute? a b) = (op.relation? (signed a) (signed b)).map .truth := by
  cases op
  case eq => exact truth_congr signed_inj.symm
  case ne => exact truth_congr (not_congr signed_inj.symm)
  all_goals rfl

theorem unsigned_of_relation {a b : UInt32} {t : Bool} (h : op.relation? a.toNat b.toNat = some t) :
    Value.unsigned op a b = .ok (.bool t) := by
  have hcompared : compared? op (some (compare a b)) = some (.bool t) := by
    rw [compare_unsigned, compared?_compare, h, Option.map_some]
  unfold Value.unsigned
  simp only [hcompared]

theorem signed_of_relation {x y : Int32} {t : Bool} (h : op.relation? x.toInt y.toInt = some t) :
    Value.signed op x y = .ok (.bool t) := by
  have hcompared : compared? op (some (compare x y)) = some (.bool t) := by
    rw [compare_signed, compared?_compare, h, Option.map_some]
  unfold Value.signed
  simp only [hcompared]

theorem relation?_of_isComparison (h : op.isComparison) (m n : Int) : ∃ t, op.relation? m n = some t := by
  cases op <;> first | exact ⟨_, rfl⟩ | exact absurd h Bool.false_ne_true

theorem outcome_u32 {w n : UInt32} (h : w = n) : (Value.u32 n).outcome? = some (.word w) := by
  rw [h]
  rfl

theorem outcome_i32 {w : UInt32} {n : Int32} (h : w = n.toUInt32) : (Value.i32 n).outcome? = some (.word w) := by
  rw [h]
  rfl

theorem outcome_of_ok {v : Value} {w : UInt32} (h : v.outcome? = some (.word w)) :
    some (Outcome.word w) = (Except.ok v : Except EvalError Value).toOption.bind outcome? := h.symm

/-- A result that both withhold in the same cases. -/
theorem outcome_of_guard {p q : Prop} [Decidable p] [Decidable q] {e : EvalError} {v : Value} {w : UInt32} (h : p ↔ q)
    (hv : ¬q → v.outcome? = some (.word w)) :
    (if p then none else some (Outcome.word w)) = (if q then Except.error e else .ok v).toOption.bind outcome? := by
  by_cases hq : q
  · rw [if_pos (h.mpr hq), if_pos hq]
    rfl
  · rw [if_neg (fun hp => hq (h.mp hp)), if_neg hq]
    exact (hv hq).symm

/-- Unsigned integers are folded to what the operation gives, and to nothing where it gives nothing. -/
theorem execute_unsigned (a b : UInt32) (h : op.isIntegral) :
    (operation? op .u32).bind (fun o => o.execute? a b) = (Value.unsigned op a b).toOption.bind outcome? := by
  by_cases hc : op.isComparison
  · obtain ⟨t, ht⟩ := relation?_of_isComparison hc a.toNat b.toNat
    rw [operation?, if_pos hc, execute_comparison_unsigned, unsigned_of_relation ht, ht]
    rfl
  have hzero : b.toNat = 0 ↔ b = 0 := UInt32.toNat_inj (b := 0)
  have hplaces : 32 ≤ b.toNat ↔ 32 ≤ b := (UInt32.le_iff_toNat_le (a := 32)).symm
  cases op
  case add => exact outcome_of_ok (outcome_u32 (by simp))
  case sub => exact outcome_of_ok (outcome_u32 (ofInt_sub_toNat a b))
  case mul => exact outcome_of_ok (outcome_u32 (by simp))
  case div => exact outcome_of_guard hzero fun _ => outcome_u32 (by rw [← UInt32.toNat_div, UInt32.ofNat_toNat])
  case mod => exact outcome_of_guard hzero fun _ => outcome_u32 (by rw [← UInt32.toNat_mod, UInt32.ofNat_toNat])
  case bitAnd => exact outcome_of_ok (outcome_u32 (by simp))
  case bitOr => exact outcome_of_ok (outcome_u32 (by simp))
  case bitXor => exact outcome_of_ok (outcome_u32 (by simp))
  case shiftLeft =>
    refine outcome_of_guard hplaces fun hlt => outcome_u32 ?_
    exact ofNat_shiftLeft (Nat.not_le.mp (mt hplaces.mp hlt))
  case shiftRight =>
    refine outcome_of_guard hplaces fun hlt => outcome_u32 ?_
    exact ofNat_shiftRight (Nat.not_le.mp (mt hplaces.mp hlt))
  all_goals contradiction

/-- Signed integers are folded to what the operation gives, and to nothing where it gives nothing, unless the least one
is divided by minus one. -/
theorem execute_signed (x y : Int32) (h : op.isIntegral)
    (hfit : ¬((op = .div ∨ op = .mod) ∧ x.toInt = -2 ^ 31 ∧ y.toInt = -1)) :
    (operation? op .i32).bind (fun o => o.execute? x.toUInt32 y.toUInt32) =
      (Value.signed op x y).toOption.bind outcome? := by
  by_cases hc : op.isComparison
  · obtain ⟨t, ht⟩ := relation?_of_isComparison hc x.toInt y.toInt
    rw [operation?, if_pos hc, execute_comparison_signed, signed_toUInt32, signed_toUInt32, signed_of_relation ht, ht]
    rfl
  have hzero : y.toInt = 0 ↔ y = 0 := Int32.toInt_inj (y := 0)
  have hneg : y < 0 ↔ y.toInt < 0 := Int32.lt_iff_toInt_lt
  have hwide : 32 ≤ y ↔ 32 ≤ y.toInt := Int32.le_iff_toInt_le (x := 32)
  have hquotient (hop : op = .div ∨ op = .mod) :
      signed y.toUInt32 = 0 ∨ signed x.toUInt32 = -2 ^ 31 ∧ signed y.toUInt32 = -1 ↔ y = 0 := by
    rw [signed_toUInt32, signed_toUInt32, or_iff_left fun hx => hfit ⟨hop, hx⟩, hzero]
  have hplaces : 32 ≤ y.toUInt32.toNat ↔ (y < 0 || 32 ≤ y) = true := by
    have hsigned := signed_toUInt32 y
    have hlt := y.toUInt32.toNat_lt
    rw [Bool.or_eq_true, decide_eq_true_eq, decide_eq_true_eq, hneg, hwide, ← hsigned]
    unfold signed
    split <;> omega
  have hshift (hlt : ¬(y < 0 || 32 ≤ y) = true) : 0 ≤ y.toInt ∧ y.toInt < 32 := by
    rw [Bool.or_eq_true, decide_eq_true_eq, decide_eq_true_eq, hneg, hwide] at hlt
    omega
  cases op
  case add => exact outcome_of_ok (outcome_i32 (by simp))
  case sub => exact outcome_of_ok (outcome_i32 (by rw [ofInt_sub_toNat, Int32.toUInt32_sub]))
  case mul => exact outcome_of_ok (outcome_i32 (by simp))
  case div =>
    refine outcome_of_guard (hquotient (.inl rfl)) fun _ => outcome_i32 ?_
    rw [signed_toUInt32, signed_toUInt32, ← toInt_quotient fun hx => hfit ⟨.inl rfl, hx⟩, ofInt_toInt]
  case mod =>
    refine outcome_of_guard (hquotient (.inr rfl)) fun _ => outcome_i32 ?_
    rw [signed_toUInt32, signed_toUInt32, ← Int32.toInt_mod, ofInt_toInt]
  case bitAnd => exact outcome_of_ok (outcome_i32 (by simp))
  case bitOr => exact outcome_of_ok (outcome_i32 (by simp))
  case bitXor => exact outcome_of_ok (outcome_i32 (by simp))
  case shiftLeft =>
    refine outcome_of_guard hplaces fun hlt => outcome_i32 ?_
    obtain ⟨hnonneg, hsmall⟩ := hshift hlt
    rw [toUInt32_shiftLeft hnonneg hsmall, ofNat_shiftLeft (Nat.not_le.mp (mt hplaces.mp hlt))]
  case shiftRight =>
    refine outcome_of_guard hplaces fun hlt => outcome_i32 ?_
    obtain ⟨hnonneg, hsmall⟩ := hshift hlt
    rw [signed_toUInt32, ← toInt_shiftRight hnonneg hsmall, ofInt_toInt]
  all_goals contradiction

end

/-- The declaration of what an operation gives. -/
def Outcome.declare (type : UInt32) : Outcome → Build UInt32
  | .word w => Builder.constant type [w]
  | .truth b => Builder.constantBool type b

theorem constantId_of_outcome {v : Value} {o : Outcome} (h : v.outcome? = some o) :
    ∃ p, v.type = .prim p ∧ Pool.constantId v = Pool.declaredConstant v (do
      let type ← Pool.primitiveId p
      Pool.build (o.declare type)) := by
  cases v with
  | bool b | i32 n | u32 n =>
    obtain rfl : _ = o := Option.some.inj h
    exact ⟨_, rfl, rfl⟩
  | absent | f32 | f64 | vector | matrix => contradiction

/-- Between integers, code has the operation that stands for the operator. -/
theorem binary_operation {op : BinaryOp} {p : Primitive} {o : Opcode} (hp : p = .i32 ∨ p = .u32) (h : op.isIntegral)
    (ho : operation? op p = some o) (result : Ty) (x y : UInt32) (span : Span) :
    Code.binary op (.prim p) (.prim p) result x y span = (do
      let type ← Code.typeId result span
      Code.drafted (Draft.binary o type x y)) := by
  obtain rfl | rfl := hp <;> cases op <;> first | contradiction | (cases ho; rfl)

theorem unsigned_ok {op : BinaryOp} {a b : UInt32} {v : Value} (h : Value.unsigned op a b = .ok v) :
    op.isIntegral ∧ ∃ o, v.outcome? = some o := by
  unfold Value.unsigned at h
  split at h
  case h_1 t ht =>
    cases h
    cases op <;> cases ht
    all_goals exact ⟨rfl, _, rfl⟩
  case h_2 =>
    split at h
    all_goals try split at h
    all_goals cases h
    all_goals exact ⟨rfl, _, rfl⟩

theorem signed_ok {op : BinaryOp} {x y : Int32} {v : Value} (h : Value.signed op x y = .ok v) :
    op.isIntegral ∧ ∃ o, v.outcome? = some o := by
  unfold Value.signed at h
  split at h
  case h_1 t ht =>
    cases h
    cases op <;> cases ht
    all_goals exact ⟨rfl, _, rfl⟩
  case h_2 =>
    split at h
    all_goals try split at h
    all_goals cases h
    all_goals exact ⟨rfl, _, rfl⟩

theorem binary_unsigned (op : BinaryOp) (a b : UInt32) :
    Value.binary op (.u32 a) (.u32 b) = Value.unsigned op a b := by
  rw [Value.binary.eq_def]
  cases op <;> rfl

theorem binary_signed (op : BinaryOp) (x y : Int32) :
    Value.binary op (.i32 x) (.i32 y) = Value.signed op x y := by
  rw [Value.binary.eq_def]
  cases op <;> rfl

theorem operation?_of_isIntegral {op : BinaryOp} {p : Primitive} (hp : p = .i32 ∨ p = .u32) (h : op.isIntegral) :
    ∃ o, operation? op p = some o := by
  obtain rfl | rfl := hp <;> cases op <;> first | contradiction | exact ⟨_, rfl⟩

/-- Folding agrees with execution. Where two integers are folded, code that has them at run time gets one operation, and
that operation makes of their words what the declaration of the folded value holds. -/
theorem execute_folded {op : BinaryOp} {l r v : Value} {a b : UInt32} (hl : l.word? = some a) (hr : r.word? = some b)
    (hv : Value.binary op l r = .ok v)
    (hfit : ¬((op = .div ∨ op = .mod) ∧ l = .i32 Int32.minValue ∧ r = .i32 (-1))) :
    ∃ o outcome, (∀ result x y span, Code.binary op l.type r.type result x y span = (do
        let type ← Code.typeId result span
        Code.drafted (Draft.binary o type x y))) ∧
      o.execute? a b = some outcome ∧ v.outcome? = some outcome := by
  cases l <;> cases hl <;> cases r <;> cases hr
  case i32.refl.i32.refl x y =>
    rw [binary_signed] at hv
    obtain ⟨hop, outcome, houtcome⟩ := signed_ok hv
    obtain ⟨o, ho⟩ := operation?_of_isIntegral (.inl rfl) hop
    have hexecute := execute_signed x y hop fun ⟨hdiv, hx, hy⟩ =>
      hfit ⟨hdiv, congrArg Value.i32 (Int32.toInt_inj.mp hx), congrArg Value.i32 (Int32.toInt_inj.mp hy)⟩
    rw [ho, hv] at hexecute
    exact ⟨o, outcome, binary_operation (.inl rfl) hop ho, hexecute.trans houtcome, houtcome⟩
  case u32.refl.u32.refl =>
    rw [binary_unsigned] at hv
    obtain ⟨hop, outcome, houtcome⟩ := unsigned_ok hv
    obtain ⟨o, ho⟩ := operation?_of_isIntegral (.inr rfl) hop
    have hexecute := execute_unsigned a b hop
    rw [ho, hv] at hexecute
    exact ⟨o, outcome, binary_operation (.inr rfl) hop ho, hexecute.trans houtcome, houtcome⟩
  all_goals
    rw [Value.binary.eq_def] at hv
    cases op <;> cases hv

theorem execute_folded_quotient :
    Value.binary .div (.i32 (-7)) (.i32 2) = .ok (.i32 (-3)) ∧
      ∃ o outcome, (∀ result x y span, Code.binary .div (.prim .i32) (.prim .i32) result x y span = (do
          let type ← Code.typeId result span
          Code.drafted (Draft.binary o type x y))) ∧
        o.execute? 0xFFFFFFF9 2 = some outcome ∧ (Value.i32 (-3)).outcome? = some outcome := by
  have hv : Value.binary .div (.i32 (-7)) (.i32 2) = .ok (.i32 (-3)) := by
    rw [binary_signed]
    rfl
  exact ⟨hv, execute_folded (l := .i32 (-7)) (r := .i32 2) (by decide) (by decide) hv fun ⟨_, hx, _⟩ =>
    absurd (Value.i32.inj hx) (by decide)⟩

end Spirv
end Shading
