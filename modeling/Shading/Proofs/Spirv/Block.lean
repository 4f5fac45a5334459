import Shading.Spirv.Instruction

/-! The form of functions: their code is cut into blocks, each of which runs from its label to its only
terminator. -/
namespace Shading.Spirv

namespace Opcode

/-- Does the operation say where the blocks of the next branch meet? -/
def isMerge (op : Opcode) : Bool := [opSelectionMerge, opLoopMerge].contains op

/-- Does the operation lead to other blocks? -/
def isBranch (op : Opcode) : Bool := [opBranch, opBranchConditional].contains op

/-- Does the operation stand at the bounds of a function or of a block? -/
def isBound (op : Opcode) : Bool :=
  op.isTerminator || op.isMerge || [opFunction, opFunctionParameter, opFunctionEnd, opLabel].contains op

/-- Does the operation compute, and neither lead on nor declare? -/
def isStep (op : Opcode) : Bool := !op.isBound && op != opVariable

theorem isBound_of_isStep {op : Opcode} (h : op.isStep = true) : op.isBound = false := by
  simp only [isStep, Bool.and_eq_true, Bool.not_eq_true'] at h
  exact h.1

theorem isTerminator_of_isBranch {op : Opcode} (h : op.isBranch = true) : op.isTerminator = true := by
  simp only [isBranch, List.contains_iff_mem, List.mem_cons, List.not_mem_nil, or_false] at h
  rcases h with rfl | rfl <;> decide

end Opcode

namespace Instruction

/-- The labels that a branch or a merge names. -/
def targets (i : Instruction) : List UInt32 :=
  if i.opcode = .opBranch || i.opcode = .opSelectionMerge then i.operands.take 1
  else if i.opcode = .opBranchConditional then (i.operands.drop 1).take 2
  else if i.opcode = .opLoopMerge then i.operands.take 2
  else []

@[simp] theorem targets_branch (l : UInt32) : targets ⟨.opBranch, [l]⟩ = [l] := rfl

@[simp] theorem targets_branchConditional (condition accept reject : UInt32) :
    targets ⟨.opBranchConditional, [condition, accept, reject]⟩ = [accept, reject] := rfl

@[simp] theorem targets_selectionMerge (merge control : UInt32) :
    targets ⟨.opSelectionMerge, [merge, control]⟩ = [merge] := rfl

@[simp] theorem targets_loopMerge (merge next control : UInt32) :
    targets ⟨.opLoopMerge, [merge, next, control]⟩ = [merge, next] := rfl

theorem targets_eq_nil {i : Instruction} (hmerge : i.opcode.isMerge = false) (hbranch : i.opcode.isBranch = false) :
    i.targets = [] := by
  simp only [Opcode.isMerge, Opcode.isBranch, List.contains_eq_mem, List.mem_cons, List.not_mem_nil, or_false,
    decide_eq_false_iff_not, not_or] at hmerge hbranch
  unfold targets
  simp only [hmerge, hbranch, decide_false, Bool.or_self, Bool.false_eq_true, ↓reduceIte]

theorem targets_eq_nil_of_isStep {i : Instruction} (h : i.opcode.isStep = true) : i.targets = [] := by
  have hbound := Opcode.isBound_of_isStep h
  simp only [Opcode.isBound, Bool.or_eq_false_iff] at hbound
  obtain ⟨⟨hterminator, hmerge⟩, -⟩ := hbound
  apply targets_eq_nil hmerge
  cases hbranch : i.opcode.isBranch with
  | false => rfl
  | true =>
    rw [Opcode.isTerminator_of_isBranch hbranch] at hterminator
    cases hterminator

end Instruction

/-- A block of a function. -/
structure Block where
  label : UInt32
  /-- variables, which stand in the first block of a function -/
  vars : List Instruction := []
  steps : List Instruction
  merge : Option Instruction := none
  last : Instruction

namespace Block

/-- The instructions of a block after its variables. -/
def code (b : Block) : List Instruction := b.steps ++ b.merge.toList ++ [b.last]

def instructions (b : Block) : List Instruction := ⟨.opLabel, [b.label]⟩ :: b.vars ++ b.code

/-- The labels that the block names. -/
def targets (b : Block) : List UInt32 := b.code.flatMap Instruction.targets

/-- A block ends with a terminator and holds no other, and a merge stands only before the branch that ends
the block. -/
structure WellFormed (b : Block) : Prop where
  vars : ∀ i ∈ b.vars, i.opcode = .opVariable
  steps : ∀ i ∈ b.steps, i.opcode.isStep = true
  merge : ∀ i ∈ b.merge, i.opcode.isMerge = true ∧ b.last.opcode.isBranch = true
  last : b.last.opcode.isTerminator = true

end Block

/-- A function as a sequence of blocks. -/
structure FunctionCode where
  head : Instruction
  params : List Instruction
  first : Block
  others : List Block

namespace FunctionCode

def blocks (f : FunctionCode) : List Block := f.first :: f.others

def labels (f : FunctionCode) : List UInt32 := f.blocks.map (·.label)

def instructions (f : FunctionCode) : List Instruction :=
  f.head :: f.params ++ f.blocks.flatMap Block.instructions ++ [⟨.opFunctionEnd, []⟩]

/-- Variables are declared at the start of the first block only, and what the blocks name are blocks of the
same function. -/
structure WellFormed (f : FunctionCode) : Prop where
  head : f.head.opcode = .opFunction
  params : ∀ i ∈ f.params, i.opcode = .opFunctionParameter
  blocks : ∀ b ∈ f.blocks, b.WellFormed
  vars : ∀ b ∈ f.others, b.vars = []
  targets : ∀ b ∈ f.blocks, ∀ t ∈ b.targets, t ∈ f.labels

end FunctionCode

/-- A module as its functions and what stands outside them. -/
structure ModuleCode where
  outside : List Instruction
  functions : List FunctionCode

namespace ModuleCode

def instructions (m : ModuleCode) : List Instruction := m.outside ++ m.functions.flatMap FunctionCode.instructions

/-- All code stands in functions that are well formed. -/
structure WellFormed (m : ModuleCode) : Prop where
  outside : ∀ i ∈ m.outside, i.opcode.isBound = false
  functions : ∀ f ∈ m.functions, f.WellFormed

end ModuleCode

/-- The code of a function after its first label and its variables. Is it at the end of a block? -/
inductive Blocks : List Instruction → Bool → Prop
  | start : Blocks [] false
  | step {is : List Instruction} {i : Instruction} : Blocks is false → i.opcode.isStep = true →
      Blocks (is ++ [i]) false
  | leave {is : List Instruction} {i : Instruction} : Blocks is false → i.opcode.isTerminator = true →
      Blocks (is ++ [i]) true
  | fork {is : List Instruction} {m i : Instruction} : Blocks is false → m.opcode.isMerge = true →
      i.opcode.isBranch = true → Blocks (is ++ [m, i]) true
  | label {is : List Instruction} (l : UInt32) : Blocks is true → Blocks (is ++ [⟨.opLabel, [l]⟩]) false

/-- The labels among instructions. -/
def labelsOf (is : List Instruction) : List UInt32 :=
  is.flatMap fun i => if i.opcode = .opLabel then i.operands else []

@[simp] theorem labelsOf_nil : labelsOf [] = [] := rfl

@[simp] theorem labelsOf_cons (i : Instruction) (is : List Instruction) :
    labelsOf (i :: is) = (if i.opcode = .opLabel then i.operands else []) ++ labelsOf is := rfl

@[simp] theorem labelsOf_append (is js : List Instruction) : labelsOf (is ++ js) = labelsOf is ++ labelsOf js :=
  List.flatMap_append

/-- Only labels are labels. -/
theorem labelsOf_eq_nil {is : List Instruction} (h : ∀ i ∈ is, i.opcode ≠ .opLabel) : labelsOf is = [] := by
  apply List.flatMap_eq_nil_iff.mpr
  intro i hi
  rw [if_neg (h i hi)]

theorem Opcode.ne_label_of_isStep {op : Opcode} (h : op.isStep = true) : op ≠ .opLabel := by
  rintro rfl
  revert h
  decide

theorem Opcode.ne_label_of_isTerminator {op : Opcode} (h : op.isTerminator = true) : op ≠ .opLabel := by
  rintro rfl
  revert h
  decide

theorem Opcode.ne_label_of_isMerge {op : Opcode} (h : op.isMerge = true) : op ≠ .opLabel := by
  rintro rfl
  revert h
  decide

/-- The labels of a block that is well formed are its own. -/
theorem Block.WellFormed.labelsOf_instructions {b : Block} (h : b.WellFormed) : labelsOf b.instructions = [b.label] := by
  have hvars : labelsOf b.vars = [] := by
    apply labelsOf_eq_nil
    intro i hi
    rw [h.vars i hi]
    decide
  have hsteps : labelsOf b.steps = [] := labelsOf_eq_nil fun i hi => Opcode.ne_label_of_isStep (h.steps i hi)
  have hmerge : labelsOf b.merge.toList = [] := by
    apply labelsOf_eq_nil
    intro i hi
    exact Opcode.ne_label_of_isMerge (h.merge i (Option.mem_toList.mp hi)).1
  have hlast := Opcode.ne_label_of_isTerminator h.last
  simp [Block.instructions, Block.code, hvars, hsteps, hmerge, hlast]

/-- Blocks from the first of a function on. -/
structure Complete (done : List Block) : Prop where
  blocks : ∀ b ∈ done, b.WellFormed
  vars : ∀ b ∈ done.tail, b.vars = []

theorem Complete.append {done : List Block} {b : Block} (h : Complete done) (hb : b.WellFormed)
    (hvars : done ≠ [] → b.vars = []) : Complete (done ++ [b]) := by
  constructor
  · intro c hc
    rcases List.mem_append.mp hc with hc | hc
    · exact h.blocks c hc
    · rw [List.mem_singleton.mp hc]
      exact hb
  · cases done with
    | nil =>
      intro c hc
      cases hc
    | cons d done =>
      intro c hc
      rcases List.mem_append.mp hc with hc | hc
      · exact h.vars c hc
      · rw [List.mem_singleton.mp hc]
        exact hvars (List.cons_ne_nil d done)

/-- Code behind the first label and the variables is cut into blocks that are at their end, and one that is
not if the code is not. -/
theorem Blocks.cut {is : List Instruction} {ended : Bool} (h : Blocks is ended) (entry : UInt32)
    {vars : List Instruction} (hvars : ∀ i ∈ vars, i.opcode = .opVariable) :
    ∃ done : List Block, Complete done ∧
      (ended = true → done ≠ [] ∧ ⟨.opLabel, [entry]⟩ :: vars ++ is = done.flatMap Block.instructions) ∧
      (ended = false → ∃ l vs steps, (∀ i ∈ vs, i.opcode = .opVariable) ∧ (∀ i ∈ steps, i.opcode.isStep = true) ∧
        (done ≠ [] → vs = []) ∧
        ⟨.opLabel, [entry]⟩ :: vars ++ is = done.flatMap Block.instructions ++ (⟨.opLabel, [l]⟩ :: vs ++ steps)) := by
  induction h with
  | start =>
    refine ⟨[], ⟨by simp, by simp⟩, by simp, fun _ => ⟨entry, vars, [], hvars, by simp, by simp, ?_⟩⟩
    rfl
  | @step is i _ hi ih =>
    obtain ⟨done, hdone, -, hopen⟩ := ih
    obtain ⟨l, vs, steps, hvs, hsteps, hfirst, heq⟩ := hopen rfl
    refine ⟨done, hdone, by simp, fun _ => ⟨l, vs, steps ++ [i], hvs, ?_, hfirst, ?_⟩⟩
    · intro j hj
      rcases List.mem_append.mp hj with hj | hj
      · exact hsteps j hj
      · rw [List.mem_singleton.mp hj]
        exact hi
    · rw [← List.append_assoc, heq]
      simp only [List.append_assoc]
  | @leave is i _ hi ih =>
    obtain ⟨done, hdone, -, hopen⟩ := ih
    obtain ⟨l, vs, steps, hvs, hsteps, hfirst, heq⟩ := hopen rfl
    have hblock : Block.WellFormed ⟨l, vs, steps, none, i⟩ := ⟨hvs, hsteps, by simp, hi⟩
    refine ⟨done ++ [⟨l, vs, steps, none, i⟩], hdone.append hblock hfirst, fun _ => ⟨by simp, ?_⟩, by simp⟩
    rw [← List.append_assoc, heq]
    simp [Block.instructions, Block.code]
  | @fork is m i _ hm hi ih =>
    obtain ⟨done, hdone, -, hopen⟩ := ih
    obtain ⟨l, vs, steps, hvs, hsteps, hfirst, heq⟩ := hopen rfl
    have hblock : Block.WellFormed ⟨l, vs, steps, some m, i⟩ :=
      ⟨hvs, hsteps, by simp [hm, hi], Opcode.isTerminator_of_isBranch hi⟩
    refine ⟨done ++ [⟨l, vs, steps, some m, i⟩], hdone.append hblock hfirst, fun _ => ⟨by simp, ?_⟩, by simp⟩
    rw [← List.append_assoc, heq]
    simp [Block.instructions, Block.code]
  | @label is l _ ih =>
    obtain ⟨done, hdone, hended, -⟩ := ih
    obtain ⟨-, heq⟩ := hended rfl
    refine ⟨done, hdone, by simp, fun _ => ⟨l, [], [], by simp, by simp, by simp, ?_⟩⟩
    rw [← List.append_assoc, heq]
    rfl

theorem Complete.labelsOf_eq {done : List Block} (h : Complete done) :
    labelsOf (done.flatMap Block.instructions) = done.map (·.label) := by
  have hblocks := h.blocks
  clear h
  induction done with
  | nil => rfl
  | cons b done ih =>
    have hb := (hblocks b List.mem_cons_self).labelsOf_instructions
    have hrest := ih fun c hc => hblocks c (List.mem_cons_of_mem b hc)
    rw [List.flatMap_cons, labelsOf_append, hb, hrest]
    rfl

/-- Code that is at the end of a block is that of a function, if it names no labels but its own. -/
theorem Blocks.functionCode {is vars params : List Instruction} {head : Instruction} {entry : UInt32}
    (h : Blocks is true) (hhead : head.opcode = .opFunction) (hparams : ∀ i ∈ params, i.opcode = .opFunctionParameter)
    (hvars : ∀ i ∈ vars, i.opcode = .opVariable)
    (htargets : ∀ i ∈ is, ∀ t ∈ i.targets, t = entry ∨ t ∈ labelsOf is) :
    ∃ f : FunctionCode, f.WellFormed ∧ f.labels = entry :: labelsOf is ∧
      f.instructions = head :: params ++ [⟨.opLabel, [entry]⟩] ++ vars ++ is ++ [⟨.opFunctionEnd, []⟩] := by
  obtain ⟨done, hdone, hended, -⟩ := h.cut entry hvars
  obtain ⟨hne, heq⟩ := hended rfl
  have hlabelsVars : labelsOf vars = [] := by
    apply labelsOf_eq_nil
    intro i hi
    rw [hvars i hi]
    decide
  have hlabels : done.map (·.label) = entry :: labelsOf is := by
    rw [← hdone.labelsOf_eq, ← heq]
    simp [hlabelsVars]
  cases done with
  | nil => exact absurd rfl hne
  | cons first others =>
    refine ⟨⟨head, params, first, others⟩, ⟨hhead, hparams, hdone.blocks, hdone.vars, ?_⟩, hlabels, ?_⟩
    · intro b hb t ht
      show t ∈ (first :: others).map (·.label)
      rw [hlabels]
      obtain ⟨i, hi, hti⟩ := List.mem_flatMap.mp ht
      have hmem : i ∈ ⟨.opLabel, [entry]⟩ :: vars ++ is := by
        rw [heq]
        apply List.mem_flatMap.mpr
        exact ⟨b, hb, List.mem_append_right _ hi⟩
      -- labels and variables name no targets
      rcases List.mem_append.mp hmem with hmem | hmem
      · rcases List.mem_cons.mp hmem with rfl | hmem
        · cases hti
        · rw [Instruction.targets_eq_nil (by rw [hvars i hmem]; decide) (by rw [hvars i hmem]; decide)] at hti
          cases hti
      · rcases htargets i hmem t hti with rfl | hmem
        · exact List.mem_cons_self
        · exact List.mem_cons_of_mem _ hmem
    · show head :: params ++ (first :: others).flatMap Block.instructions ++ _ = _
      rw [← heq]
      simp only [List.append_assoc, List.cons_append, List.nil_append]

end Shading.Spirv
