import Mathlib.Algebra.Group.Nat.Defs
import Mathlib.Data.List.Perm.Basic
import Mathlib.Data.List.Nodup
import Shading.Proofs.Spirv.Block
import Shading.Spirv.Pool

/-! What the declarations of types and constants do to a module: they add to its sections outside
functions, give no number twice, and keep the numbers of the types that are declared already. -/
namespace Shading.Spirv

/-- Numbers that a counter gave in its first `n` steps, none of them for two things. -/
def Drawn (first : UInt32) (n : Nat) (ids : List UInt32) : Prop :=
  ∃ is : List Nat, is.Nodup ∧ (∀ i ∈ is, i < n) ∧ ids.Perm (is.map fun i => first + i.toUInt32)

namespace Drawn

variable {first : UInt32} {m n : Nat} {ids ids' : List UInt32}

theorem nil (first : UInt32) (n : Nat) : Drawn first n [] := ⟨[], List.nodup_nil, by simp, by simp⟩

theorem first_step (first : UInt32) : Drawn first 1 [first] := by
  refine ⟨[0], by simp, by simp, ?_⟩
  rw [List.map_singleton, show first + Nat.toUInt32 0 = first from UInt32.add_zero first]

theorem perm (h : Drawn first n ids) (hperm : ids'.Perm ids) : Drawn first n ids' := by
  obtain ⟨is, hnodup, hlt, his⟩ := h
  exact ⟨is, hnodup, hlt, hperm.trans his⟩

theorem of_cons {id : UInt32} (h : Drawn first n (id :: ids)) : Drawn first n ids := by
  obtain ⟨is, hnodup, hlt, hperm⟩ := h
  obtain ⟨i, hi, rfl⟩ := List.mem_map.mp (hperm.subset List.mem_cons_self)
  refine ⟨is.erase i, hnodup.erase i, fun j hj => hlt j (List.mem_of_mem_erase hj), ?_⟩
  have hcons := hperm.trans ((List.perm_cons_erase hi).map _)
  exact hcons.cons_inv

theorem of_append (h : Drawn first n (ids ++ ids')) : Drawn first n ids' := by
  induction ids with
  | nil => exact h
  | cons id ids ih => exact ih h.of_cons

/-- Numbers of later steps are others. -/
theorem append (h : Drawn first m ids) (h' : Drawn (first + m.toUInt32) n ids') : Drawn first (m + n) (ids' ++ ids) := by
  obtain ⟨is, hnodup, hlt, hperm⟩ := h
  obtain ⟨is', hnodup', hlt', hperm'⟩ := h'
  refine ⟨is'.map (m + ·) ++ is, ?_, ?_, ?_⟩
  · apply List.nodup_append'.mpr
    refine ⟨hnodup'.map (fun i j hij => Nat.add_left_cancel hij), hnodup, ?_⟩
    intro i hi hi'
    obtain ⟨j, -, rfl⟩ := List.mem_map.mp hi
    have := hlt _ hi'
    omega
  · intro i hi
    rcases List.mem_append.mp hi with hi | hi
    · obtain ⟨j, hj, rfl⟩ := List.mem_map.mp hi
      have := hlt' j hj
      omega
    · have := hlt i hi
      omega
  · rw [List.map_append, List.map_map]
    apply List.Perm.append _ hperm
    apply hperm'.trans
    apply List.Perm.of_eq
    apply List.map_congr_left
    intro i _
    show first + m.toUInt32 + i.toUInt32 = first + (m + i).toUInt32
    rw [UInt32.add_assoc]
    congr 1
    exact (UInt32.ofNat_add m i).symm

/-- As long as the counter does not start over, no number is given twice. -/
theorem nodup (h : Drawn first n ids) (hn : n ≤ 2 ^ 32) : ids.Nodup := by
  obtain ⟨is, hnodup, hlt, hperm⟩ := h
  rw [hperm.nodup_iff]
  apply List.Nodup.map_on _ hnodup
  intro i hi j hj hij
  have heq : i.toUInt32 = j.toUInt32 := (UInt32.add_right_inj first).mp hij
  have hi' : i.toUInt32.toNat = i := UInt32.toNat_ofNat_of_lt (Nat.lt_of_lt_of_le (hlt i hi) hn)
  have hj' : j.toUInt32.toNat = j := UInt32.toNat_ofNat_of_lt (Nat.lt_of_lt_of_le (hlt j hj) hn)
  rw [← hi', ← hj', heq]

end Drawn

namespace Instruction

/-- Does the instruction say where a part of a buffer is? -/
def isPlacing (i : Instruction) : Bool :=
  let decorations := [Decoration.offset, Decoration.arrayStride, Decoration.matrixStride]
  (i.opcode = .opDecorate && (i.operands[1]?).any decorations.contains) ||
    (i.opcode = .opMemberDecorate && (i.operands[2]?).any decorations.contains)

end Instruction

namespace Builder

/-- The instructions outside functions. -/
def declarations (b : Builder) : List Instruction :=
  b.capabilities.toList ++ b.extInstImports.toList ++ b.memoryModel.toList ++ b.entryPoints.toList ++
    b.executionModes.toList ++ b.debugStrings.toList ++ b.debugNames.toList ++ b.annotations.toList ++
    b.types.toList ++ b.globals.toList

theorem instructions_eq (b : Builder) : b.instructions = b.declarations ++ b.functions.toList := rfl

/-- How many instructions there are. -/
def size (b : Builder) : Nat := b.instructions.length

/-- The instructions that say where parts of buffers are. -/
def placings (b : Builder) : List Instruction := b.annotations.toList.filter Instruction.isPlacing

/-- A step outside functions that takes `n` numbers and says nothing about where parts of buffers are. -/
structure Adds (b b' : Builder) (n : Nat) : Prop where
  next : b'.next = b.next + n.toUInt32
  outside : ∀ i ∈ b'.declarations, i ∈ b.declarations ∨ i.opcode.isBound = false
  size : b.size + n ≤ b'.size
  functions : b'.functions = b.functions
  placings : b'.placings = b.placings

theorem Adds.refl (b : Builder) : b.Adds b 0 :=
  ⟨(UInt32.add_zero b.next).symm, fun _ h => .inl h, Nat.le_refl _, rfl, rfl⟩

theorem Adds.trans {a b c : Builder} {m n : Nat} (h : a.Adds b m) (h' : b.Adds c n) : a.Adds c (m + n) := by
  constructor
  · rw [h'.next, h.next, UInt32.add_assoc]
    congr 1
    exact (UInt32.ofNat_add m n).symm
  · intro i hi
    rcases h'.outside i hi with hi | hi
    · exact h.outside i hi
    · exact .inr hi
  · have := h.size
    have := h'.size
    omega
  · rw [h'.functions, h.functions]
  · rw [h'.placings, h.placings]

variable {b b' : Builder} {i : Instruction}

theorem mem_declarations : i ∈ b.declarations ↔
    i ∈ b.capabilities ∨ i ∈ b.extInstImports ∨ i ∈ b.memoryModel ∨ i ∈ b.entryPoints ∨ i ∈ b.executionModes ∨
      i ∈ b.debugStrings ∨ i ∈ b.debugNames ∨ i ∈ b.annotations ∨ i ∈ b.types ∨ i ∈ b.globals := by
  simp only [declarations, List.mem_append, Array.mem_toList_iff, Option.mem_toList, Option.mem_def, or_assoc]

theorem size_eq : b.size = b.capabilities.size + b.extInstImports.size + b.memoryModel.toList.length +
    b.entryPoints.size + b.executionModes.size + b.debugStrings.size + b.debugNames.size + b.annotations.size +
    b.types.size + b.globals.size + b.functions.size := by
  simp only [size, instructions, List.length_append, Array.length_toList]

/-- The sections outside functions. -/
def sections (b : Builder) : List (List Instruction) :=
  [b.capabilities.toList, b.extInstImports.toList, b.memoryModel.toList, b.entryPoints.toList, b.executionModes.toList,
    b.debugStrings.toList, b.debugNames.toList, b.annotations.toList, b.types.toList, b.globals.toList]

theorem declarations_eq (b : Builder) : b.declarations = b.sections.flatten := by
  simp [declarations, sections]

theorem perm_flatten_modify {α : Type} (a : α) : ∀ {ss : List (List α)} {k : Nat}, k < ss.length →
    (ss.modify k (·.concat a)).flatten.Perm (a :: ss.flatten) := by
  intro ss
  induction ss with
  | nil =>
    intro k hk
    cases hk
  | cons s ss ih =>
    intro k hk
    cases k with
    | zero =>
      rw [List.modify_zero_cons, List.flatten_cons, List.concat_eq_append, List.flatten_cons, List.append_assoc]
      exact List.perm_middle
    | succ k =>
      rw [List.modify_succ_cons, List.flatten_cons, List.flatten_cons]
      have hrest := ih (Nat.lt_of_succ_lt_succ hk)
      exact (hrest.append_left s).trans List.perm_middle

/-- One more instruction in one of the sections. -/
theorem perm_of_push (i : Instruction) (k : Nat) (hk : k < 10) (h : b'.sections = b.sections.modify k (·.concat i)) :
    b'.declarations.Perm (i :: b.declarations) := by
  rw [declarations_eq, declarations_eq, h]
  exact perm_flatten_modify i hk

theorem outside_of_perm (h : b'.declarations.Perm (i :: b.declarations)) (hbound : i.opcode.isBound = false) :
    ∀ j ∈ b'.declarations, j ∈ b.declarations ∨ j.opcode.isBound = false := by
  intro j hj
  rcases List.mem_cons.mp (h.mem_iff.mp hj) with rfl | hj
  · exact .inr hbound
  · exact .inl hj

theorem size_of_perm (h : b'.declarations.Perm (i :: b.declarations)) (hfunctions : b'.functions = b.functions) :
    b'.size = b.size + 1 := by
  have hlength := h.length_eq
  simp only [Builder.size, instructions_eq, List.length_append, List.length_cons, hfunctions] at hlength ⊢
  omega

/-- A step that adds one instruction takes at most one number. -/
theorem Adds.of_push {n : Nat} (i : Instruction) (k : Nat) (hk : k < 10) (h : i.opcode.isBound = false) (hn : n ≤ 1)
    (hsections : b'.sections = b.sections.modify k (·.concat i)) (hnext : b'.next = b.next + n.toUInt32)
    (hfunctions : b'.functions = b.functions) (hplacings : b'.placings = b.placings) : b.Adds b' n := by
  have hperm := perm_of_push i k hk hsections
  have hsize := size_of_perm hperm hfunctions
  exact ⟨hnext, outside_of_perm hperm h, by omega, hfunctions, hplacings⟩

end Builder

namespace Build

/-- A step that adds outside functions. -/
def Adds {α : Type} (x : Build α) : Prop := ∀ b : Builder, ∃ n, b.Adds (x b).2 n

/-- A step that gives its result a number. -/
def Numbers (x : Build UInt32) : Prop := ∀ b : Builder, (x b).1 = b.next ∧ b.Adds (x b).2 1

theorem Numbers.adds {x : Build UInt32} (h : Numbers x) : Adds x := fun b => ⟨1, (h b).2⟩

theorem adds_pure {α : Type} (a : α) : Adds (pure a) := fun b => ⟨0, .refl b⟩

theorem Adds.bind {α β : Type} {x : Build α} {f : α → Build β} (hx : Adds x) (hf : ∀ a, Adds (f a)) :
    Adds (x >>= f) := by
  intro b
  obtain ⟨m, hm⟩ := hx b
  obtain ⟨n, hn⟩ := hf (x b).1 (x b).2
  exact ⟨m + n, hm.trans hn⟩

theorem adds_forM {α : Type} {f : α → Build Unit} (hf : ∀ a, Adds (f a)) (xs : List α) : Adds (xs.forM f) := by
  induction xs with
  | nil => exact adds_pure ()
  | cons x xs ih =>
    rw [List.forM_eq_forM, List.forM_cons]
    exact (hf x).bind fun _ => ih

theorem numbers_type {op : Opcode} (h : op.isBound = false) (operands : List UInt32) :
    Numbers (Builder.type op operands) := by
  intro b
  exact ⟨rfl, .of_push ⟨op, b.next :: operands⟩ 8 (by decide) h (Nat.le_refl 1) rfl rfl rfl rfl⟩

theorem numbers_constantOf {op : Opcode} (h : op.isBound = false) (type : UInt32) (operands : List UInt32) :
    Numbers (Builder.constantOf op type operands) := by
  intro b
  exact ⟨rfl, .of_push ⟨op, type :: b.next :: operands⟩ 8 (by decide) h (Nat.le_refl 1) rfl rfl rfl rfl⟩

theorem numbers_global (pointer storage : UInt32) : Numbers (Builder.global pointer storage) := by
  intro b
  exact ⟨rfl, .of_push ⟨.opVariable, [pointer, b.next, storage]⟩ 9 (by decide) rfl (Nat.le_refl 1) rfl rfl rfl rfl⟩

theorem numbers_extInstImport (name : Text) : Numbers (Builder.extInstImport name) := by
  intro b
  exact ⟨rfl, .of_push ⟨.opExtInstImport, b.next :: textWords name⟩ 1 (by decide) rfl (Nat.le_refl 1) rfl rfl rfl rfl⟩

theorem numbers_string (text : Text) : Numbers (Builder.string text) := by
  intro b
  exact ⟨rfl, .of_push ⟨.opString, b.next :: textWords text⟩ 5 (by decide) rfl (Nat.le_refl 1) rfl rfl rfl rfl⟩

theorem adds_debugString {i : Instruction} (h : i.opcode.isBound = false) : Adds (Builder.debugString i) := by
  intro b
  exact ⟨0, .of_push i 5 (by decide) h (Nat.zero_le 1) rfl (UInt32.add_zero b.next).symm rfl rfl⟩

theorem adds_debugName {i : Instruction} (h : i.opcode.isBound = false) : Adds (Builder.debugName i) := by
  intro b
  exact ⟨0, .of_push i 6 (by decide) h (Nat.zero_le 1) rfl (UInt32.add_zero b.next).symm rfl rfl⟩

theorem adds_entryPoint (model function : UInt32) (name : Text) (interfaces : List UInt32) :
    Adds (Builder.entryPoint model function name interfaces) := by
  intro b
  exact ⟨0, .of_push ⟨.opEntryPoint, model :: function :: textWords name ++ interfaces⟩ 3 (by decide) rfl
    (Nat.zero_le 1) rfl (UInt32.add_zero b.next).symm rfl rfl⟩

theorem adds_executionMode (entry mode : UInt32) (args : List UInt32) : Adds (Builder.executionMode entry mode args) := by
  intro b
  exact ⟨0, .of_push ⟨.opExecutionMode, entry :: mode :: args⟩ 4 (by decide) rfl (Nat.zero_le 1) rfl
    (UInt32.add_zero b.next).symm rfl rfl⟩

theorem adds_annotate {i : Instruction} (h : i.opcode.isBound = false) (hplacing : i.isPlacing = false) :
    Adds (Builder.annotate i) := by
  intro b
  refine ⟨0, .of_push i 7 (by decide) h (Nat.zero_le 1) rfl (UInt32.add_zero b.next).symm rfl ?_⟩
  show (b.annotations.push i).toList.filter Instruction.isPlacing = b.annotations.toList.filter Instruction.isPlacing
  rw [Array.toList_push, List.filter_append, List.filter_singleton, hplacing]
  exact List.append_nil _

/-- A decoration that says nothing about where parts of buffers are. -/
theorem adds_decorate {decoration : UInt32} (h : decoration ≠ Decoration.offset ∧ decoration ≠ Decoration.arrayStride ∧
    decoration ≠ Decoration.matrixStride) (id : UInt32) (args : List UInt32) :
    Adds (Builder.decorate id decoration args) := by
  apply adds_annotate rfl
  have hmember : Opcode.opDecorate ≠ Opcode.opMemberDecorate := by decide
  simp [Instruction.isPlacing, h, hmember]

theorem adds_capability (c : UInt32) : Adds (Builder.capability c) := by
  intro b
  have hstep : (Builder.capability c b).2 = if b.capabilities.contains ⟨.opCapability, [c]⟩ then b
    else { b with capabilities := b.capabilities.push ⟨.opCapability, [c]⟩ } := rfl
  by_cases hmem : b.capabilities.contains ⟨.opCapability, [c]⟩
  · rw [hstep, if_pos hmem]
    exact ⟨0, .refl b⟩
  · rw [hstep, if_neg hmem]
    exact ⟨0, .of_push ⟨.opCapability, [c]⟩ 0 (by decide) rfl (Nat.zero_le 1) rfl (UInt32.add_zero b.next).symm rfl rfl⟩

/-- The memory model is set anew, so that nothing may be added. -/
theorem adds_setMemoryModel (addressing memory : UInt32) : Adds (Builder.setMemoryModel addressing memory) := by
  intro b
  have hstep : (Builder.setMemoryModel addressing memory b).2 =
    { b with memoryModel := some ⟨.opMemoryModel, [addressing, memory]⟩ } := rfl
  refine ⟨0, (UInt32.add_zero b.next).symm, ?_, ?_, rfl, rfl⟩
  · intro j hj
    simp only [hstep, Builder.mem_declarations, Option.mem_def, Option.some.injEq] at hj
    by_cases hmodel : ⟨.opMemoryModel, [addressing, memory]⟩ = j
    · rw [← hmodel]
      exact .inr rfl
    · left
      rw [Builder.mem_declarations]
      grind
  · have hmodel : b.memoryModel.toList.length ≤ 1 := by cases b.memoryModel <;> simp
    simp only [hstep, Builder.size_eq, Option.toList_some, List.length_singleton]
    omega

end Build

namespace Pool

/-- The pool after steps that took `n` numbers, those of types that are new and some others among them. -/
structure Grows (p p' : Pool) (n : Nat) (ids : List UInt32) : Prop where
  next : p'.builder.next = p.builder.next + n.toUInt32
  outside : ∀ i ∈ p'.builder.declarations, i ∈ p.builder.declarations ∨ i.opcode.isBound = false
  lookup : ∀ k id, p.types.lookup k = some id → p'.types.lookup k = some id
  drawn : ∃ new, p'.types = new ++ p.types ∧ Drawn p.builder.next n (ids ++ new.map (·.2))

theorem Grows.refl (p : Pool) : p.Grows p 0 [] :=
  ⟨(UInt32.add_zero _).symm, fun _ h => .inl h, fun _ _ h => h, [], rfl, .nil _ _⟩

theorem Grows.trans {p q r : Pool} {m n : Nat} {ids ids' : List UInt32} (h : p.Grows q m ids) (h' : q.Grows r n ids') :
    p.Grows r (m + n) (ids' ++ ids) := by
  refine ⟨?_, ?_, fun k id hk => h'.lookup k id (h.lookup k id hk), ?_⟩
  · rw [h'.next, h.next, UInt32.add_assoc]
    congr 1
    exact (UInt32.ofNat_add m n).symm
  · intro i hi
    rcases h'.outside i hi with hi | hi
    · exact h.outside i hi
    · exact .inr hi
  · obtain ⟨new, hnew, hdrawn⟩ := h.drawn
    obtain ⟨new', hnew', hdrawn'⟩ := h'.drawn
    rw [h.next] at hdrawn'
    refine ⟨new' ++ new, by rw [hnew', hnew, List.append_assoc], (hdrawn.append hdrawn').perm ?_⟩
    rw [List.map_append]
    grind

/-- Steps outside functions that take numbers for what they add, and say nothing about where parts of buffers
are. -/
structure Adds (p p' : Pool) (ids : List UInt32) : Prop where
  grows : ∃ n, p.Grows p' n ids ∧ p.builder.size + n ≤ p'.builder.size
  functions : p'.builder.functions = p.builder.functions
  placings : p'.builder.placings = p.builder.placings

theorem Adds.refl (p : Pool) : p.Adds p [] := ⟨⟨0, .refl p, Nat.le_refl _⟩, rfl, rfl⟩

theorem Adds.trans {p q r : Pool} {ids ids' : List UInt32} (h : p.Adds q ids) (h' : q.Adds r ids') :
    p.Adds r (ids' ++ ids) := by
  obtain ⟨⟨m, hgrows, hsize⟩, hfunctions, hplacings⟩ := h
  obtain ⟨⟨n, hgrows', hsize'⟩, hfunctions', hplacings'⟩ := h'
  exact ⟨⟨m + n, hgrows.trans hgrows', by omega⟩, hfunctions'.trans hfunctions, hplacings'.trans hplacings⟩

/-- A step that leaves the tables alone. -/
theorem Adds.of_builder {p : Pool} {b : Builder} {n : Nat} (h : p.builder.Adds b n) :
    p.Adds { p with builder := b } [] :=
  ⟨⟨n, ⟨h.next, h.outside, fun _ _ h => h, [], rfl, .nil _ _⟩, h.size⟩, h.functions, h.placings⟩

end Pool

theorem mapError_ok {ε ε' α : Type} {f : ε → ε'} {x : Except ε α} {a : α} : x.mapError f = .ok a ↔ x = .ok a := by
  cases x <;> simp [Except.mapError]

theorem bind_ok {σ ε α β : Type} {x : StateT σ (Except ε) α} {f : α → StateT σ (Except ε) β} {s s' : σ} {b : β} :
    (x >>= f) s = .ok (b, s') ↔ ∃ a s₁, x s = .ok (a, s₁) ∧ f a s₁ = .ok (b, s') := by
  change ((x s) >>= fun r => f r.1 r.2) = .ok (b, s') ↔ _
  cases hx : x s with
  | error e =>
    constructor
    · intro h
      cases h
    · rintro ⟨a, s₁, h, -⟩
      cases h
  | ok r =>
    constructor
    · intro h
      exact ⟨r.1, r.2, rfl, h⟩
    · rintro ⟨a, s₁, h, hf⟩
      cases h
      exact hf

namespace Pooling

variable {ε α β : Type}

/-- Code that adds outside functions. -/
def Adds (x : StateT Pool (Except ε) α) : Prop := ∀ p a p', x p = .ok (a, p') → p.Adds p' []

/-- Code that gives its result a number of its own. -/
def Declares (x : Pooling UInt32) : Prop := ∀ p id p', x p = .ok (id, p') → p.Adds p' [id]

theorem adds_pure (a : α) : Adds (pure a : StateT Pool (Except ε) α) := by
  intro p a' p' h
  cases h
  exact .refl p

theorem adds_throw (e : FormError) : Adds (throw e : Pooling α) := by
  intro p a p' h
  cases h

theorem adds_get : Adds (get : Pooling Pool) := by
  intro p a p' h
  cases h
  exact .refl p

theorem Adds.bind {x : StateT Pool (Except ε) α} {f : α → StateT Pool (Except ε) β} (hx : Adds x)
    (hf : ∀ a, Adds (f a)) : Adds (x >>= f) := by
  intro p b p' h
  obtain ⟨a, p₁, hxp, hfp⟩ := bind_ok.mp h
  exact (hx p a p₁ hxp).trans (hf a p₁ b p' hfp)

theorem Declares.bind {x : Pooling α} {f : α → Pooling UInt32} (hx : Adds x) (hf : ∀ a, Declares (f a)) :
    Declares (x >>= f) := by
  intro p id p' h
  obtain ⟨a, p₁, hxp, hfp⟩ := bind_ok.mp h
  exact (hx p a p₁ hxp).trans (hf a p₁ id p' hfp)

theorem Declares.adds {x : Pooling UInt32} (h : Declares x) : Adds x := by
  intro p id p' hx
  obtain ⟨⟨n, hgrows, hsize⟩, hfunctions, hplacings⟩ := h p id p' hx
  obtain ⟨new, hnew, hdrawn⟩ := hgrows.drawn
  exact ⟨⟨n, ⟨hgrows.next, hgrows.outside, hgrows.lookup, new, hnew, hdrawn.of_cons⟩, hsize⟩, hfunctions, hplacings⟩

/-- A table other than that of the types is changed. -/
theorem adds_modify {f : Pool → Pool} (hbuilder : ∀ p, (f p).builder = p.builder) (htypes : ∀ p, (f p).types = p.types) :
    Adds (modify f : Pooling PUnit) := by
  intro p a p' h
  cases h
  refine ⟨⟨0, ⟨?_, ?_, ?_, [], htypes p, .nil _ _⟩, ?_⟩, ?_, ?_⟩
  · rw [hbuilder]
    exact (UInt32.add_zero _).symm
  · intro i hi
    rw [hbuilder] at hi
    exact .inl hi
  · intro k id hk
    rw [htypes]
    exact hk
  · rw [hbuilder]
    exact Nat.le_refl _
  · rw [hbuilder]
  · rw [hbuilder]

theorem adds_mapM {f : α → StateT Pool (Except ε) β} (hf : ∀ a, Adds (f a)) (xs : List α) : Adds (xs.mapM f) := by
  induction xs with
  | nil => exact adds_pure []
  | cons x xs ih =>
    rw [List.mapM_cons]
    apply (hf x).bind
    intro y
    exact ih.bind fun ys => adds_pure (y :: ys)

theorem adds_build {x : Build α} (h : Build.Adds x) : Adds (Pool.build x) := by
  intro p a p' hx
  cases hx
  obtain ⟨n, hn⟩ := h p.builder
  exact .of_builder hn

theorem declares_build {x : Build UInt32} (h : Build.Numbers x) : Declares (Pool.build x) := by
  intro p id p' hx
  cases hx
  obtain ⟨hid, hadds⟩ := h p.builder
  refine ⟨⟨1, ⟨hadds.next, hadds.outside, fun _ _ h => h, [], rfl, ?_⟩, hadds.size⟩, hadds.functions, hadds.placings⟩
  show Drawn p.builder.next 1 [(x p.builder).1]
  rw [hid]
  exact .first_step _

end Pooling

end Shading.Spirv
