import Shading.Spirv.Builder

/-! Functions that are put together one instruction at a time. -/
namespace Shading.Spirv

/-- A function under construction. -/
structure Draft where
  id : UInt32
  /-- the function and its parameters -/
  head : Array Instruction
  /-- the label of the first block -/
  entry : UInt32
  /-- the variables, which stand at the start of the first block -/
  vars : Array Instruction := #[]
  body : Array Instruction := #[]
  /-- Is the last block at its end? -/
  terminated : Bool := false

/-- Steps of the construction of a function inside a module. -/
abbrev Drafting := StateT Draft Build

namespace Draft

/-- Starts a function whose number is given. -/
def start (id result type : UInt32) : Build Draft := do
  return { id, head := #[⟨.opFunction, [result, id, 0, type]⟩], entry := ← Builder.fresh }

/-- The instructions of a function. -/
def instructions (d : Draft) : List Instruction :=
  d.head.toList ++ [⟨.opLabel, [d.entry]⟩] ++ d.vars.toList ++ d.body.toList ++ [⟨.opFunctionEnd, []⟩]

/-- Adds a function to its module. -/
def finish (d : Draft) : Build Unit :=
  modify fun b => { b with functions := b.functions ++ d.instructions.toArray }

def fresh : Drafting UInt32 := fun d b => ((b.next, d), { b with next := b.next + 1 })

def parameter (type : UInt32) : Drafting UInt32 := do
  let id ← fresh
  modify fun d => { d with head := d.head.push ⟨.opFunctionParameter, [type, id]⟩ }
  return id

/-- Declares a variable of the function. -/
def declare (pointer : UInt32) : Drafting UInt32 := do
  let id ← fresh
  modify fun d => { d with
    vars := d.vars.push ⟨.opVariable, [pointer, id, StorageClass.function]⟩ }
  return id

/-- Starts a block. -/
def label (id : UInt32) : Drafting Unit :=
  modify fun d => { d with body := d.body.push ⟨.opLabel, [id]⟩, terminated := false }

/-- Adds an instruction. What follows the end of a block is in a new block that nothing leads to. -/
def emit (op : Opcode) (operands : List UInt32) : Drafting Unit := do
  if (← get).terminated then label (← fresh)
  modify fun d => { d with body := d.body.push ⟨op, operands⟩, terminated := op.isTerminator }

/-- Adds an instruction with a result. -/
def result (op : Opcode) (type : UInt32) (operands : List UInt32) : Drafting UInt32 := do
  let id ← fresh
  emit op (type :: id :: operands)
  return id

def binary (op : Opcode) (type l r : UInt32) : Drafting UInt32 := result op type [l, r]
def unary (op : Opcode) (type operand : UInt32) : Drafting UInt32 := result op type [operand]
def load (type pointer : UInt32) : Drafting UInt32 := result .opLoad type [pointer]
def store (pointer value : UInt32) : Drafting Unit := emit .opStore [pointer, value]

def accessChain (type base : UInt32) (indices : List UInt32) : Drafting UInt32 :=
  result .opAccessChain type (base :: indices)

def compositeConstruct (type : UInt32) (parts : List UInt32) : Drafting UInt32 :=
  result .opCompositeConstruct type parts

def compositeExtract (type composite : UInt32) (indices : List UInt32) : Drafting UInt32 :=
  result .opCompositeExtract type (composite :: indices)

def vectorShuffle (type a b : UInt32) (components : List UInt32) : Drafting UInt32 :=
  result .opVectorShuffle type (a :: b :: components)

def arrayLength (type struct member : UInt32) : Drafting UInt32 :=
  result .opArrayLength type [struct, member]

def sampleImplicitLod (type image coordinate : UInt32) : Drafting UInt32 :=
  result .opImageSampleImplicitLod type [image, coordinate]

def sampleExplicitLod (type image coordinate lod : UInt32) : Drafting UInt32 :=
  result .opImageSampleExplicitLod type [image, coordinate, lodOperand, lod]

def select (type condition accept reject : UInt32) : Drafting UInt32 :=
  result .opSelect type [condition, accept, reject]

def extInst (type set instruction : UInt32) (operands : List UInt32) : Drafting UInt32 :=
  result .opExtInst type (set :: instruction :: operands)

def call (type function : UInt32) (args : List UInt32) : Drafting UInt32 :=
  result .opFunctionCall type (function :: args)

def selectionMerge (merge control : UInt32) : Drafting Unit := emit .opSelectionMerge [merge, control]

def loopMerge (merge next control : UInt32) : Drafting Unit := emit .opLoopMerge [merge, next, control]

def branch (target : UInt32) : Drafting Unit := emit .opBranch [target]

def branchConditional (condition accept reject : UInt32) : Drafting Unit :=
  emit .opBranchConditional [condition, accept, reject]

def kill : Drafting Unit := emit .opKill []
def leave : Drafting Unit := emit .opReturn []
def leaveWith (value : UInt32) : Drafting Unit := emit .opReturnValue [value]
def unreachable : Drafting Unit := emit .opUnreachable []

/-- Leads on to another block, if the last one is not at its end. -/
def branchOn (target : UInt32) : Drafting Unit := do
  if !(← get).terminated then branch target

end Draft

end Shading.Spirv
