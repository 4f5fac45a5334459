import Shading.Number
import Shading.Spirv.Enumerant
import Shading.Spirv.Instruction

/-! Modules that are put together one instruction at a time. -/
namespace Shading.Spirv

/-- A module under construction, by the sections that its instructions go to. -/
structure Builder where
  version : Version
  /-- the next number that no result has yet -/
  next : UInt32 := 1
  capabilities : Array Instruction := #[]
  extInstImports : Array Instruction := #[]
  memoryModel : Option Instruction := none
  entryPoints : Array Instruction := #[]
  executionModes : Array Instruction := #[]
  debugStrings : Array Instruction := #[]
  debugNames : Array Instruction := #[]
  annotations : Array Instruction := #[]
  types : Array Instruction := #[]
  globals : Array Instruction := #[]
  functions : Array Instruction := #[]

/-- Steps of a construction. -/
abbrev Build := StateM Builder

namespace Builder

/-- The instructions in the order of the sections. -/
def instructions (b : Builder) : List Instruction :=
  b.capabilities.toList ++ b.extInstImports.toList ++ b.memoryModel.toList ++ b.entryPoints.toList ++
    b.executionModes.toList ++ b.debugStrings.toList ++ b.debugNames.toList ++ b.annotations.toList ++
    b.types.toList ++ b.globals.toList ++ b.functions.toList

/-- The words of the module. -/
def words (b : Builder) : List UInt32 := encode ⟨b.version.word, 0, b.next, 0⟩ b.instructions

/-- A number that no result has yet. -/
def fresh : Build UInt32 := fun b => (b.next, { b with next := b.next + 1 })

def bound : Build UInt32 := return (← get).next

/-- Declares a capability; one that is declared already is not declared again. -/
def capability (c : UInt32) : Build Unit :=
  let i : Instruction := ⟨.opCapability, [c]⟩
  modify fun b =>
    if b.capabilities.contains i then b else { b with capabilities := b.capabilities.push i }

def extInstImport (name : Text) : Build UInt32 := do
  let id ← fresh
  modify fun b => { b with
    extInstImports := b.extInstImports.push ⟨.opExtInstImport, id :: textWords name⟩ }
  return id

def setMemoryModel (addressing memory : UInt32) : Build Unit :=
  modify fun b => { b with memoryModel := some ⟨.opMemoryModel, [addressing, memory]⟩ }

def entryPoint (model function : UInt32) (name : Text) (interfaces : List UInt32) : Build Unit :=
  modify fun b => { b with
    entryPoints := b.entryPoints.push ⟨.opEntryPoint, model :: function :: textWords name ++ interfaces⟩ }

def executionMode (entry mode : UInt32) (args : List UInt32) : Build Unit :=
  modify fun b => { b with
    executionModes := b.executionModes.push ⟨.opExecutionMode, entry :: mode :: args⟩ }

def debugString (i : Instruction) : Build Unit :=
  modify fun b => { b with debugStrings := b.debugStrings.push i }

def string (text : Text) : Build UInt32 := do
  let id ← fresh
  debugString ⟨.opString, id :: textWords text⟩
  return id

/-- Names the source. The file is the number of a string, or zero if it is not known. -/
def source (language version file : UInt32) : Build Unit :=
  debugString ⟨.opSource, language :: version :: if file = 0 then [] else [file]⟩

def debugName (i : Instruction) : Build Unit :=
  modify fun b => { b with debugNames := b.debugNames.push i }

def name (id : UInt32) (text : Text) : Build Unit := debugName ⟨.opName, id :: textWords text⟩

def memberName (struct member : UInt32) (text : Text) : Build Unit :=
  debugName ⟨.opMemberName, struct :: member :: textWords text⟩

def annotate (i : Instruction) : Build Unit :=
  modify fun b => { b with annotations := b.annotations.push i }

def decorate (id decoration : UInt32) (args : List UInt32) : Build Unit :=
  annotate ⟨.opDecorate, id :: decoration :: args⟩

def memberDecorate (struct member decoration : UInt32) (args : List UInt32) : Build Unit :=
  annotate ⟨.opMemberDecorate, struct :: member :: decoration :: args⟩

/-- Declares a type. -/
def type (op : Opcode) (operands : List UInt32) : Build UInt32 := do
  let id ← fresh
  modify fun b => { b with types := b.types.push ⟨op, id :: operands⟩ }
  return id

def typeVoid : Build UInt32 := type .opTypeVoid []
def typeBool : Build UInt32 := type .opTypeBool []
def typeFloat (width : UInt32) : Build UInt32 := type .opTypeFloat [width]

def typeInt (width : UInt32) (signed : Bool) : Build UInt32 :=
  type .opTypeInt [width, if signed then 1 else 0]

def typeVector (component count : UInt32) : Build UInt32 := type .opTypeVector [component, count]
def typeMatrix (column count : UInt32) : Build UInt32 := type .opTypeMatrix [column, count]

/-- An array; its length is the number of a constant. -/
def typeArray (element length : UInt32) : Build UInt32 := type .opTypeArray [element, length]

def typeRuntimeArray (element : UInt32) : Build UInt32 := type .opTypeRuntimeArray [element]

/-- An image that is sampled: neither arrayed nor multisampled, and of no known format. -/
def typeImage (sampled dim : UInt32) (depth : Bool) : Build UInt32 :=
  type .opTypeImage [sampled, dim, if depth then 1 else 0, 0, 0, 1, 0]

def typeSampledImage (image : UInt32) : Build UInt32 := type .opTypeSampledImage [image]
def typePointer (storage base : UInt32) : Build UInt32 := type .opTypePointer [storage, base]

def typeFunction (result : UInt32) (params : List UInt32) : Build UInt32 :=
  type .opTypeFunction (result :: params)

def typeStruct (members : List UInt32) : Build UInt32 := type .opTypeStruct members

/-- Declares a constant of some form. -/
def constantOf (op : Opcode) (type : UInt32) (operands : List UInt32) : Build UInt32 := do
  let id ← fresh
  modify fun b => { b with types := b.types.push ⟨op, type :: id :: operands⟩ }
  return id

def constant (type : UInt32) (words : List UInt32) : Build UInt32 := constantOf .opConstant type words

def constantBool (type : UInt32) (value : Bool) : Build UInt32 :=
  constantOf (if value then .opConstantTrue else .opConstantFalse) type []

def constantSingle (type : UInt32) (x : Single) : Build UInt32 := constant type [x.bits]

def constantDouble (type : UInt32) (x : Double) : Build UInt32 :=
  constant type [x.bits.toUInt32, (x.bits >>> 32).toUInt32]

def constantComposite (type : UInt32) (parts : List UInt32) : Build UInt32 :=
  constantOf .opConstantComposite type parts

/-- Declares a variable outside functions. -/
def global (pointer storage : UInt32) : Build UInt32 := do
  let id ← fresh
  modify fun b => { b with globals := b.globals.push ⟨.opVariable, [pointer, id, storage]⟩ }
  return id

end Builder

end Shading.Spirv
