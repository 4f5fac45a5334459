import Shading.Module
import Shading.Proofs.Text.Rune

/-! Codes and what they stand for. Every byte is a code, because codes without a meaning are kept. -/
namespace Shading

/-- Codes below a bound are checked one by one. -/
theorem code_of_small {α : Type} {ofCode : UInt8 → α} {code : α → UInt8} {bound b : UInt8}
    (h : ∀ n : Fin bound.toNat, code (ofCode (UInt8.ofNat n)) = UInt8.ofNat n) (hb : ¬bound ≤ b) :
    code (ofCode b) = b := by
  have hlt : b.toNat < bound.toNat := Nat.lt_of_not_le fun hle => hb (UInt8.le_iff_toNat_le.mpr hle)
  have hcode := h ⟨b.toNat, hlt⟩
  rwa [UInt8.ofNat_toNat] at hcode

@[simp] theorem Primitive.ofCode_code (p : Primitive) : ofCode p.code = p := by
  cases p with
  | reserved c => simp [ofCode, code, c.large]
  | _ => rfl

@[simp] theorem Primitive.code_ofCode (b : UInt8) : (ofCode b).code = b := by
  by_cases h : 5 ≤ b
  · simp [ofCode, code, h]
  · exact code_of_small (by decide) h

@[simp] theorem ImageDim.ofCode_code (d : ImageDim) : ofCode d.code = d := by
  cases d with
  | reserved c => simp [ofCode, code, c.large]
  | _ => rfl

@[simp] theorem ImageDim.code_ofCode (b : UInt8) : (ofCode b).code = b := by
  by_cases h : 4 ≤ b
  · simp [ofCode, code, h]
  · exact code_of_small (by decide) h

@[simp] theorem Intrinsic.ofCode_code (i : Intrinsic) : ofCode i.code = i := by
  cases i with
  | reserved c => simp [ofCode, code, c.large]
  | _ => rfl

@[simp] theorem Intrinsic.code_ofCode (b : UInt8) : (ofCode b).code = b := by
  by_cases h : 41 ≤ b
  · simp [ofCode, code, h]
  · exact code_of_small (by decide) h

@[simp] theorem BinaryOp.ofCode_code (op : BinaryOp) : ofCode op.code = op := by
  cases op with
  | reserved c => simp [ofCode, code, c.large]
  | _ => rfl

@[simp] theorem BinaryOp.code_ofCode (b : UInt8) : (ofCode b).code = b := by
  by_cases h : 18 ≤ b
  · simp [ofCode, code, h]
  · exact code_of_small (by decide) h

@[simp] theorem UnaryOp.ofCode_code (op : UnaryOp) : ofCode op.code = op := by
  cases op with
  | reserved c => simp [ofCode, code, c.large]
  | _ => rfl

@[simp] theorem UnaryOp.code_ofCode (b : UInt8) : (ofCode b).code = b := by
  by_cases h : 4 ≤ b
  · simp [ofCode, code, h]
  · exact code_of_small (by decide) h

@[simp] theorem AssignOp.ofCode_code (op : AssignOp) : ofCode op.code = op := by
  cases op with
  | reserved c => simp [ofCode, code, c.large]
  | _ => rfl

@[simp] theorem AssignOp.code_ofCode (b : UInt8) : (ofCode b).code = b := by
  by_cases h : 8 ≤ b
  · simp [ofCode, code, h]
  · exact code_of_small (by decide) h

@[simp] theorem Builtin.ofCode_code (b : Builtin) : ofCode b.code = b := by
  cases b with
  | reserved c => simp [ofCode, code, c.large]
  | _ => rfl

@[simp] theorem Builtin.code_ofCode (b : UInt8) : (ofCode b).code = b := by
  by_cases h : 11 ≤ b
  · simp [ofCode, code, h]
  · exact code_of_small (by decide) h

@[simp] theorem Stage.ofCode_code (s : Stage) : ofCode s.code = s := by
  cases s with
  | reserved c => simp [ofCode, code, c.large]
  | _ => rfl

@[simp] theorem Stage.code_ofCode (b : UInt8) : (ofCode b).code = b := by
  by_cases h : 3 ≤ b
  · simp [ofCode, code, h]
  · exact code_of_small (by decide) h

@[simp] theorem DepthWrite.ofCode_code (d : DepthWrite) : ofCode d.code = d := by
  cases d with
  | reserved c => simp [ofCode, code, c.large]
  | _ => rfl

@[simp] theorem DepthWrite.code_ofCode (b : UInt8) : (ofCode b).code = b := by
  by_cases h : 4 ≤ b
  · simp [ofCode, code, h]
  · exact code_of_small (by decide) h

@[simp] theorem Layout.ofCode_code (l : Layout) : ofCode l.code = l := by
  cases l with
  | reserved c => simp [ofCode, code, c.large]
  | _ => rfl

@[simp] theorem Layout.code_ofCode (b : UInt8) : (ofCode b).code = b := by
  by_cases h : 2 ≤ b
  · simp [ofCode, code, h]
  · exact code_of_small (by decide) h

@[simp] theorem Unroll.ofCode_code (u : Unroll) : ofCode u.code = u := by
  cases u with
  | reserved c => simp [ofCode, code, c.large]
  | _ => rfl

@[simp] theorem Unroll.code_ofCode (b : UInt8) : (ofCode b).code = b := by
  by_cases h : 3 ≤ b
  · simp [ofCode, code, h]
  · exact code_of_small (by decide) h

end Shading
