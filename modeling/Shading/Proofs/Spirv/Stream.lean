import Mathlib.Data.Nat.Bitwise
import Mathlib.Tactic.NormNum
import Shading.Spirv.Draft

/-! Streams of words. What is written as words is read back: bytes, texts, and the instructions of a module. -/
namespace Shading.Spirv

/-- Bits above those of a number are added to it. -/
private theorem or_two_pow_mul {x k : Nat} (h : x < 2 ^ k) (y : Nat) : x ||| 2 ^ k * y = x + 2 ^ k * y := by
  rw [Nat.or_comm, ← Nat.two_pow_add_eq_or_of_lt h, Nat.add_comm]

private theorem toNat_shifted (x : UInt8) {k : UInt32} (hk : k.toNat ≤ 24) :
    (x.toUInt32 <<< k).toNat = 2 ^ k.toNat * x.toNat := by
  have hx : x.toNat < 2 ^ 8 := x.toNat_lt
  have hpow : 2 ^ k.toNat ≤ 2 ^ 24 := Nat.pow_le_pow_right (by decide) hk
  have hfits : 2 ^ k.toNat * x.toNat < 2 ^ 32 := by
    calc 2 ^ k.toNat * x.toNat ≤ 2 ^ 24 * x.toNat := Nat.mul_le_mul_right _ hpow
      _ < 2 ^ 32 := by omega
  have hshift : k.toNat % 32 = k.toNat := Nat.mod_eq_of_lt (by omega)
  rw [UInt32.toNat_shiftLeft, UInt8.toNat_toUInt32, hshift, Nat.shiftLeft_eq, Nat.mul_comm, Nat.mod_eq_of_lt hfits]

/-- The bytes of a word are its digits to the base 256. -/
theorem toNat_wordOf (a b c d : UInt8) :
    (wordOf a b c d).toNat = a.toNat + 2 ^ 8 * b.toNat + 2 ^ 16 * c.toNat + 2 ^ 24 * d.toNat := by
  have ha : a.toNat < 2 ^ 8 := a.toNat_lt
  have hb : b.toNat < 2 ^ 8 := b.toNat_lt
  have hc : c.toNat < 2 ^ 8 := c.toNat_lt
  have h₂ := or_two_pow_mul ha b.toNat
  have h₃ := or_two_pow_mul (show a.toNat + 2 ^ 8 * b.toNat < 2 ^ 16 by omega) c.toNat
  have h₄ := or_two_pow_mul (show a.toNat + 2 ^ 8 * b.toNat + 2 ^ 16 * c.toNat < 2 ^ 24 by omega) d.toNat
  unfold wordOf
  rw [UInt32.toNat_or, UInt32.toNat_or, UInt32.toNat_or, UInt8.toNat_toUInt32,
    toNat_shifted b (by decide), toNat_shifted c (by decide), toNat_shifted d (by decide)]
  change a.toNat ||| 2 ^ 8 * b.toNat ||| 2 ^ 16 * c.toNat ||| 2 ^ 24 * d.toNat = _
  rw [h₂, h₃, h₄]

theorem bytesOf_wordOf (a b c d : UInt8) : bytesOf (wordOf a b c d) = [a, b, c, d] := by
  have ha : a.toNat < 2 ^ 8 := a.toNat_lt
  have hb : b.toNat < 2 ^ 8 := b.toNat_lt
  have hc : c.toNat < 2 ^ 8 := c.toNat_lt
  have hd : d.toNat < 2 ^ 8 := d.toNat_lt
  simp only [bytesOf, List.cons.injEq, and_true, ← UInt8.toNat_inj, UInt32.toNat_toUInt8, UInt32.toNat_shiftRight,
    toNat_wordOf, UInt32.reduceToNat, Nat.reduceMod, Nat.shiftRight_eq_div_pow]
  omega

theorem wordOf_bytesOf (w : UInt32) :
    wordOf w.toUInt8 (w >>> 8).toUInt8 (w >>> 16).toUInt8 (w >>> 24).toUInt8 = w := by
  have hw : w.toNat < 2 ^ 32 := w.toNat_lt
  simp only [← UInt32.toNat_inj, toNat_wordOf, UInt32.toNat_toUInt8, UInt32.toNat_shiftRight,
    UInt32.reduceToNat, Nat.reduceMod, Nat.shiftRight_eq_div_pow]
  omega

theorem ofBytes_toBytes (words : List UInt32) : ofBytes (toBytes words) = words := by
  induction words with
  | nil => rfl
  | cons w words ih =>
    have hstep : ofBytes (toBytes (w :: words)) =
        wordOf w.toUInt8 (w >>> 8).toUInt8 (w >>> 16).toUInt8 (w >>> 24).toUInt8 :: ofBytes (toBytes words) := rfl
    rw [hstep, wordOf_bytesOf, ih]

/-- A word of which a byte is zero ends a text. -/
private theorem readText_last {w : UInt32} {s : Text} (h : (bytesOf w).takeWhile (· != 0) = s) (hs : s.length < 4)
    (rest : List UInt32) : readText (w :: rest) = (s, rest) := by
  simp only [readText, h, hs, ↓reduceIte]

/-- A text is read up to where it ends, whatever follows. -/
theorem readText_textWords {s : Text} (h : 0 ∉ s) (rest : List UInt32) :
    readText (textWords s ++ rest) = (s, rest) := by
  -- the recursion takes four bytes at a time, and the last word holds fewer
  fun_induction textWords s with
  | case1 => exact readText_last (by decide) (by decide) rest
  | case2 a =>
    simp only [List.mem_singleton] at h
    exact readText_last (by simp [bytesOf_wordOf, Ne.symm h]) (by simp) rest
  | case3 a b =>
    simp only [List.mem_cons, List.not_mem_nil, or_false, not_or] at h
    exact readText_last (by simp [bytesOf_wordOf, Ne.symm h.1, Ne.symm h.2]) (by simp) rest
  | case4 a b c =>
    simp only [List.mem_cons, List.not_mem_nil, or_false, not_or] at h
    exact readText_last (by simp [bytesOf_wordOf, Ne.symm h.1, Ne.symm h.2.1, Ne.symm h.2.2]) (by simp) rest
  | case5 a b c d s ih =>
    simp only [List.mem_cons, not_or] at h
    obtain ⟨ha, hb, hc, hd, hs⟩ := h
    have hbytes : (bytesOf (wordOf a b c d)).takeWhile (· != 0) = [a, b, c, d] := by
      simp [bytesOf_wordOf, Ne.symm ha, Ne.symm hb, Ne.symm hc, Ne.symm hd]
    rw [List.cons_append, readText, hbytes, ih hs]
    rfl

namespace Instruction

/-- The first word of an instruction. -/
def leadWord (i : Instruction) : UInt32 := (i.size.toUInt32 <<< 16) ||| i.opcode.code.toUInt32

theorem encode_eq (i : Instruction) : i.encode = i.leadWord :: i.operands := rfl

/-- An instruction is not longer than its first word can say. -/
def Fits (i : Instruction) : Prop := i.operands.length ≤ 65534

theorem toNat_leadWord {i : Instruction} (h : i.Fits) :
    i.leadWord.toNat = i.opcode.code.toNat + 2 ^ 16 * i.size := by
  have hcode : i.opcode.code.toNat < 2 ^ 16 := i.opcode.code.toNat_lt
  have hsize : i.size < 2 ^ 16 := by
    unfold Fits at h
    unfold size
    omega
  have hword : i.size.toUInt32.toNat = i.size := UInt32.toNat_ofNat_of_lt (Nat.lt_trans hsize (by decide))
  unfold leadWord
  rw [UInt32.toNat_or, UInt32.toNat_shiftLeft, UInt16.toNat_toUInt32, hword]
  change (i.size <<< 16 % 2 ^ 32) ||| i.opcode.code.toNat = _
  rw [Nat.shiftLeft_eq, Nat.mod_eq_of_lt (by omega), Nat.mul_comm, Nat.or_comm, or_two_pow_mul hcode]

theorem size_of_leadWord {i : Instruction} (h : i.Fits) : (i.leadWord >>> 16).toNat = i.size := by
  have hcode : i.opcode.code.toNat < 2 ^ 16 := i.opcode.code.toNat_lt
  rw [UInt32.toNat_shiftRight, toNat_leadWord h]
  change (i.opcode.code.toNat + 2 ^ 16 * i.size) >>> 16 = i.size
  rw [Nat.shiftRight_eq_div_pow]
  omega

theorem opcode_of_leadWord {i : Instruction} (h : i.Fits) : (⟨i.leadWord.toUInt16⟩ : Opcode) = i.opcode := by
  have hcode : i.opcode.code.toNat < 2 ^ 16 := i.opcode.code.toNat_lt
  have heq : i.leadWord.toUInt16 = i.opcode.code := by
    rw [← UInt16.toNat_inj, UInt32.toNat_toUInt16, toNat_leadWord h]
    omega
  rw [heq]

/-- A word and as many more as it counts are those of an instruction. -/
theorem leadWord_of_count {w : UInt32} {ws : List UInt32} (h : ws.length + 1 = (w >>> 16).toNat) :
    (⟨⟨w.toUInt16⟩, ws⟩ : Instruction).leadWord = w := by
  have hw : w.toNat < 2 ^ 32 := w.toNat_lt
  have hcount : (w >>> 16).toNat = w.toNat / 2 ^ 16 := by
    rw [UInt32.toNat_shiftRight]
    exact Nat.shiftRight_eq_div_pow _ _
  have hfits : (⟨⟨w.toUInt16⟩, ws⟩ : Instruction).Fits := by
    show ws.length ≤ 65534
    omega
  rw [← UInt32.toNat_inj, toNat_leadWord hfits]
  show w.toUInt16.toNat + 2 ^ 16 * (ws.length + 1) = w.toNat
  rw [UInt32.toNat_toUInt16]
  omega

end Instruction

/-- Instructions that fit are found again behind any header. -/
theorem decodeFrom_encode {is : List Instruction} (h : ∀ i ∈ is, i.Fits) (offset : Nat) :
    decodeFrom offset (is.flatMap Instruction.encode) = .ok is := by
  induction is generalizing offset with
  | nil => rw [List.flatMap_nil, decodeFrom]
  | cons i is ih =>
    have hi := h i List.mem_cons_self
    have hrest := ih (fun j hj => h j (List.mem_cons_of_mem i hj)) (offset + i.size)
    have hlength : (i.operands ++ is.flatMap Instruction.encode).length + 1 ≥ i.size := by
      rw [List.length_append]
      unfold Instruction.size
      omega
    have hzero : i.size ≠ 0 := Nat.succ_ne_zero _
    have hdrop : (i.operands ++ is.flatMap Instruction.encode).drop (i.size - 1) = is.flatMap Instruction.encode :=
      List.drop_left
    have htake : (i.operands ++ is.flatMap Instruction.encode).take (i.size - 1) = i.operands := List.take_left
    rw [List.flatMap_cons, Instruction.encode_eq, List.cons_append, decodeFrom]
    simp only [Instruction.size_of_leadWord hi, hzero, decide_false, Bool.false_or, Nat.not_lt.mpr hlength, hdrop, hrest,
      htake, Instruction.opcode_of_leadWord hi]
    rfl

/-- Words that are read as instructions are the words of those instructions. -/
theorem encode_decodeFrom {offset : Nat} {ws : List UInt32} {is : List Instruction}
    (h : decodeFrom offset ws = .ok is) : is.flatMap Instruction.encode = ws := by
  fun_induction decodeFrom offset ws generalizing is with
  | case1 =>
    cases h
    rfl
  | case2 => cases h
  | case3 offset w ws count hcount =>
    rename_i ih
    simp only [Bool.or_eq_true, decide_eq_true_eq, not_or, Nat.not_lt] at hcount
    cases hrest : decodeFrom (offset + count) (ws.drop (count - 1)) with
    | error e =>
      rw [hrest] at h
      cases h
    | ok rest =>
      rw [hrest] at h
      cases h
      have htake : (ws.take (count - 1)).length + 1 = (w >>> 16).toNat := by
        rw [List.length_take]
        show min (count - 1) ws.length + 1 = count
        omega
      rw [List.flatMap_cons, ih hrest, Instruction.encode_eq, Instruction.leadWord_of_count htake, List.cons_append,
        List.take_append_drop]

theorem decode_encode {is : List Instruction} (h : ∀ i ∈ is, i.Fits) (header : Header) :
    decode (encode header is) = .ok (header, is) := by
  have hrest := decodeFrom_encode h 5
  simp only [encode, decode, ne_eq, not_true_eq_false, ↓reduceIte, hrest]
  rfl

theorem encode_decode {words : List UInt32} {header : Header} {is : List Instruction}
    (h : decode words = .ok (header, is)) : encode header is = words := by
  unfold decode at h
  split at h
  · rename_i m version generator bound schema ws
    by_cases hmagic : m = magic
    · cases hrest : decodeFrom 5 ws with
      | error e =>
        simp only [hmagic, ne_eq, not_true_eq_false, ↓reduceIte, hrest] at h
        cases h
      | ok is' =>
        simp only [hmagic, ne_eq, not_true_eq_false, ↓reduceIte, hrest] at h
        cases h
        rw [encode, encode_decodeFrom hrest, hmagic]
    · simp only [ne_eq, hmagic, not_false_eq_true, ↓reduceIte] at h
      cases h
  · cases h

namespace Builder

/-- What a module under construction starts with. -/
def header (b : Builder) : Header := ⟨b.version.word, 0, b.next, 0⟩

theorem words_eq (b : Builder) : b.words = encode b.header b.instructions := rfl

end Builder

/-- However a module is put together, its words are read back as the instructions of its sections, unless one
is too long for its first word. Words that can be read are the words of what is read, and words are found
again in their bytes, and texts in their words. -/
theorem words_readBack :
    (∀ b : Builder, (∀ i ∈ b.instructions, i.operands.length ≤ 65534) →
      decode b.words = .ok (b.header, b.instructions)) ∧
    (∀ words header is, decode words = .ok (header, is) → encode header is = words) ∧
    (∀ words, ofBytes (toBytes words) = words) ∧
    (∀ s rest, 0 ∉ s → readText (textWords s ++ rest) = (s, rest)) :=
  ⟨fun b h => decode_encode h b.header, fun _ _ _ h => encode_decode h, ofBytes_toBytes,
    fun _ rest h => readText_textWords h rest⟩

/-- A fragment stage that does nothing, put together step by step. -/
def idleFragment : Builder :=
  let steps : Build Unit := do
    Builder.capability Capability.shader
    let _ ← Builder.extInstImport "GLSL.std.450"
    Builder.setMemoryModel AddressingModel.logical MemoryModel.glsl450
    let void ← Builder.typeVoid
    let type ← Builder.typeFunction void []
    let id ← Builder.fresh
    let draft ← Draft.start id void type
    let (_, draft) ← Draft.leave draft
    draft.finish
    Builder.entryPoint ExecutionModel.fragment id "main" []
    Builder.executionMode id ExecutionMode.originUpperLeft []
  (steps { version := .v1_3 }).2

theorem words_readBack_idleFragment :
    (∀ i ∈ idleFragment.instructions, i.operands.length ≤ 65534) ∧
    idleFragment.instructions.map (·.opcode) =
      [.opCapability, .opExtInstImport, .opMemoryModel, .opEntryPoint, .opExecutionMode, .opTypeVoid,
        .opTypeFunction, .opFunction, .opLabel, .opReturn, .opFunctionEnd] ∧
    decode idleFragment.words = .ok (idleFragment.header, idleFragment.instructions) ∧
    encode idleFragment.header idleFragment.instructions = idleFragment.words ∧
    ofBytes (toBytes idleFragment.words) = idleFragment.words ∧
    readText (textWords "main" ++ [7]) = (("main" : Text), [7]) := by
  have hfits : ∀ i ∈ idleFragment.instructions, i.operands.length ≤ 65534 := by decide +kernel
  obtain ⟨hread, hwritten, hbytes, htext⟩ := words_readBack
  have hdecode := hread idleFragment hfits
  have hopcodes : idleFragment.instructions.map (·.opcode) =
      [.opCapability, .opExtInstImport, .opMemoryModel, .opEntryPoint, .opExecutionMode, .opTypeVoid,
        .opTypeFunction, .opFunction, .opLabel, .opReturn, .opFunctionEnd] := by decide +kernel
  have hname := htext "main" [7] (by decide +kernel)
  exact ⟨hfits, hopcodes, hdecode, hwritten _ _ _ hdecode, hbytes _, hname⟩

end Shading.Spirv
