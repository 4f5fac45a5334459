import Shading.Text

/-! Operations of the binary format. -/
namespace Shading.Spirv

/-- An operation, known by its number. -/
structure Opcode where
  code : UInt16
deriving DecidableEq, Repr

/-- What the operands of an instruction start with. -/
inductive Lead
  /-- neither a type nor a result -/
  | plain
  /-- the number of the result -/
  | result
  /-- the type of the result and then the number of the result -/
  | typed
deriving DecidableEq, Repr

namespace Opcode

@[match_pattern] def opNop : Opcode := ⟨0⟩
@[match_pattern] def opUndef : Opcode := ⟨1⟩
@[match_pattern] def opSource : Opcode := ⟨3⟩
@[match_pattern] def opName : Opcode := ⟨5⟩
@[match_pattern] def opMemberName : Opcode := ⟨6⟩
@[match_pattern] def opString : Opcode := ⟨7⟩
@[match_pattern] def opExtension : Opcode := ⟨10⟩
@[match_pattern] def opExtInstImport : Opcode := ⟨11⟩
@[match_pattern] def opExtInst : Opcode := ⟨12⟩
@[match_pattern] def opMemoryModel : Opcode := ⟨14⟩
@[match_pattern] def opEntryPoint : Opcode := ⟨15⟩
@[match_pattern] def opExecutionMode : Opcode := ⟨16⟩
@[match_pattern] def opCapability : Opcode := ⟨17⟩
@[match_pattern] def opTypeVoid : Opcode := ⟨19⟩
@[match_pattern] def opTypeBool : Opcode := ⟨20⟩
@[match_pattern] def opTypeInt : Opcode := ⟨21⟩
@[match_pattern] def opTypeFloat : Opcode := ⟨22⟩
@[match_pattern] def opTypeVector : Opcode := ⟨23⟩
@[match_pattern] def opTypeMatrix : Opcode := ⟨24⟩
@[match_pattern] def opTypeImage : Opcode := ⟨25⟩
@[match_pattern] def opTypeSampler : Opcode := ⟨26⟩
@[match_pattern] def opTypeSampledImage : Opcode := ⟨27⟩
@[match_pattern] def opTypeArray : Opcode := ⟨28⟩
@[match_pattern] def opTypeRuntimeArray : Opcode := ⟨29⟩
@[match_pattern] def opTypeStruct : Opcode := ⟨30⟩
@[match_pattern] def opTypePointer : Opcode := ⟨32⟩
@[match_pattern] def opTypeFunction : Opcode := ⟨33⟩
@[match_pattern] def opConstantTrue : Opcode := ⟨41⟩
@[match_pattern] def opConstantFalse : Opcode := ⟨42⟩
@[match_pattern] def opConstant : Opcode := ⟨43⟩
@[match_pattern] def opConstantComposite : Opcode := ⟨44⟩
@[match_pattern] def opConstantNull : Opcode := ⟨46⟩
@[match_pattern] def opFunction : Opcode := ⟨54⟩
@[match_pattern] def opFunctionParameter : Opcode := ⟨55⟩
@[match_pattern] def opFunctionEnd : Opcode := ⟨56⟩
@[match_pattern] def opFunctionCall : Opcode := ⟨57⟩
@[match_pattern] def opVariable : Opcode := ⟨59⟩
@[match_pattern] def opLoad : Opcode := ⟨61⟩
@[match_pattern] def opStore : Opcode := ⟨62⟩
@[match_pattern] def opAccessChain : Opcode := ⟨65⟩
@[match_pattern] def opArrayLength : Opcode := ⟨68⟩
@[match_pattern] def opDecorate : Opcode := ⟨71⟩
@[match_pattern] def opMemberDecorate : Opcode := ⟨72⟩
@[match_pattern] def opVectorExtractDynamic : Opcode := ⟨77⟩
@[match_pattern] def opVectorShuffle : Opcode := ⟨79⟩
@[match_pattern] def opCompositeConstruct : Opcode := ⟨80⟩
@[match_pattern] def opCompositeExtract : Opcode := ⟨81⟩
@[match_pattern] def opCompositeInsert : Opcode := ⟨82⟩
@[match_pattern] def opCopyObject : Opcode := ⟨83⟩
@[match_pattern] def opTranspose : Opcode := ⟨84⟩
@[match_pattern] def opImageSampleImplicitLod : Opcode := ⟨87⟩
@[match_pattern] def opImageSampleExplicitLod : Opcode := ⟨88⟩
@[match_pattern] def opConvertFToU : Opcode := ⟨109⟩
@[match_pattern] def opConvertFToS : Opcode := ⟨110⟩
@[match_pattern] def opConvertSToF : Opcode := ⟨111⟩
@[match_pattern] def opConvertUToF : Opcode := ⟨112⟩
@[match_pattern] def opFConvert : Opcode := ⟨115⟩
@[match_pattern] def opBitcast : Opcode := ⟨124⟩
@[match_pattern] def opSNegate : Opcode := ⟨126⟩
@[match_pattern] def opFNegate : Opcode := ⟨127⟩
@[match_pattern] def opIAdd : Opcode := ⟨128⟩
@[match_pattern] def opFAdd : Opcode := ⟨129⟩
@[match_pattern] def opISub : Opcode := ⟨130⟩
@[match_pattern] def opFSub : Opcode := ⟨131⟩
@[match_pattern] def opIMul : Opcode := ⟨132⟩
@[match_pattern] def opFMul : Opcode := ⟨133⟩
@[match_pattern] def opUDiv : Opcode := ⟨134⟩
@[match_pattern] def opSDiv : Opcode := ⟨135⟩
@[match_pattern] def opFDiv : Opcode := ⟨136⟩
@[match_pattern] def opUMod : Opcode := ⟨137⟩
@[match_pattern] def opSRem : Opcode := ⟨138⟩
@[match_pattern] def opSMod : Opcode := ⟨139⟩
@[match_pattern] def opFRem : Opcode := ⟨140⟩
@[match_pattern] def opFMod : Opcode := ⟨141⟩
@[match_pattern] def opVectorTimesScalar : Opcode := ⟨142⟩
@[match_pattern] def opMatrixTimesScalar : Opcode := ⟨143⟩
@[match_pattern] def opVectorTimesMatrix : Opcode := ⟨144⟩
@[match_pattern] def opMatrixTimesVector : Opcode := ⟨145⟩
@[match_pattern] def opMatrixTimesMatrix : Opcode := ⟨146⟩
@[match_pattern] def opDot : Opcode := ⟨148⟩
@[match_pattern] def opAny : Opcode := ⟨154⟩
@[match_pattern] def opAll : Opcode := ⟨155⟩
@[match_pattern] def opLogicalEqual : Opcode := ⟨164⟩
@[match_pattern] def opLogicalNotEqual : Opcode := ⟨165⟩
@[match_pattern] def opLogicalOr : Opcode := ⟨166⟩
@[match_pattern] def opLogicalAnd : Opcode := ⟨167⟩
@[match_pattern] def opLogicalNot : Opcode := ⟨168⟩
@[match_pattern] def opSelect : Opcode := ⟨169⟩
@[match_pattern] def opIEqual : Opcode := ⟨170⟩
@[match_pattern] def opINotEqual : Opcode := ⟨171⟩
@[match_pattern] def opUGreaterThan : Opcode := ⟨172⟩
@[match_pattern] def opSGreaterThan : Opcode := ⟨173⟩
@[match_pattern] def opUGreaterThanEqual : Opcode := ⟨174⟩
@[match_pattern] def opSGreaterThanEqual : Opcode := ⟨175⟩
@[match_pattern] def opULessThan : Opcode := ⟨176⟩
@[match_pattern] def opSLessThan : Opcode := ⟨177⟩
@[match_pattern] def opULessThanEqual : Opcode := ⟨178⟩
@[match_pattern] def opSLessThanEqual : Opcode := ⟨179⟩
@[match_pattern] def opFOrdEqual : Opcode := ⟨180⟩
@[match_pattern] def opFOrdNotEqual : Opcode := ⟨182⟩
@[match_pattern] def opFUnordNotEqual : Opcode := ⟨183⟩
@[match_pattern] def opFOrdLessThan : Opcode := ⟨184⟩
@[match_pattern] def opFOrdGreaterThan : Opcode := ⟨186⟩
@[match_pattern] def opFOrdLessThanEqual : Opcode := ⟨188⟩
@[match_pattern] def opFOrdGreaterThanEqual : Opcode := ⟨190⟩
@[match_pattern] def opShiftRightLogical : Opcode := ⟨194⟩
@[match_pattern] def opShiftRightArithmetic : Opcode := ⟨195⟩
@[match_pattern] def opShiftLeftLogical : Opcode := ⟨196⟩
@[match_pattern] def opBitwiseOr : Opcode := ⟨197⟩
@[match_pattern] def opBitwiseXor : Opcode := ⟨198⟩
@[match_pattern] def opBitwiseAnd : Opcode := ⟨199⟩
@[match_pattern] def opNot : Opcode := ⟨200⟩
@[match_pattern] def opLoopMerge : Opcode := ⟨246⟩
@[match_pattern] def opSelectionMerge : Opcode := ⟨247⟩
@[match_pattern] def opLabel : Opcode := ⟨248⟩
@[match_pattern] def opBranch : Opcode := ⟨249⟩
@[match_pattern] def opBranchConditional : Opcode := ⟨250⟩
@[match_pattern] def opKill : Opcode := ⟨252⟩
@[match_pattern] def opReturn : Opcode := ⟨253⟩
@[match_pattern] def opReturnValue : Opcode := ⟨254⟩
@[match_pattern] def opUnreachable : Opcode := ⟨255⟩

/-- The operations that have names. -/
def table : List (Opcode × String × Lead) :=
  [(opNop, "OpNop", .plain), (opUndef, "OpUndef", .typed), (opSource, "OpSource", .plain),
   (opName, "OpName", .plain), (opMemberName, "OpMemberName", .plain), (opString, "OpString", .result),
   (opExtension, "OpExtension", .plain), (opExtInstImport, "OpExtInstImport", .result),
   (opExtInst, "OpExtInst", .typed), (opMemoryModel, "OpMemoryModel", .plain),
   (opEntryPoint, "OpEntryPoint", .plain), (opExecutionMode, "OpExecutionMode", .plain),
   (opCapability, "OpCapability", .plain), (opTypeVoid, "OpTypeVoid", .result),
   (opTypeBool, "OpTypeBool", .result), (opTypeInt, "OpTypeInt", .result),
   (opTypeFloat, "OpTypeFloat", .result), (opTypeVector, "OpTypeVector", .result),
   (opTypeMatrix, "OpTypeMatrix", .result), (opTypeImage, "OpTypeImage", .result),
   (opTypeSampler, "OpTypeSampler", .result), (opTypeSampledImage, "OpTypeSampledImage", .result),
   (opTypeArray, "OpTypeArray", .result), (opTypeRuntimeArray, "OpTypeRuntimeArray", .result),
   (opTypeStruct, "OpTypeStruct", .result), (opTypePointer, "OpTypePointer", .result),
   (opTypeFunction, "OpTypeFunction", .result), (opConstantTrue, "OpConstantTrue", .typed),
   (opConstantFalse, "OpConstantFalse", .typed), (opConstant, "OpConstant", .typed),
   (opConstantComposite, "OpConstantComposite", .typed), (opConstantNull, "OpConstantNull", .typed),
   (opFunction, "OpFunction", .typed), (opFunctionParameter, "OpFunctionParameter", .typed),
   (opFunctionEnd, "OpFunctionEnd", .plain), (opFunctionCall, "OpFunctionCall", .typed),
   (opVariable, "OpVariable", .typed), (opLoad, "OpLoad", .typed), (opStore, "OpStore", .plain),
   (opAccessChain, "OpAccessChain", .typed), (opArrayLength, "OpArrayLength", .typed),
   (opDecorate, "OpDecorate", .plain), (opMemberDecorate, "OpMemberDecorate", .plain),
   (opVectorExtractDynamic, "OpVectorExtractDynamic", .typed),
   (opVectorShuffle, "OpVectorShuffle", .typed), (opCompositeConstruct, "OpCompositeConstruct", .typed),
   (opCompositeExtract, "OpCompositeExtract", .typed), (opCompositeInsert, "OpCompositeInsert", .typed),
   (opCopyObject, "OpCopyObject", .typed), (opTranspose, "OpTranspose", .typed),
   (opImageSampleImplicitLod, "OpImageSampleImplicitLod", .typed),
   (opImageSampleExplicitLod, "OpImageSampleExplicitLod", .typed),
   (opConvertFToU, "OpConvertFToU", .typed), (opConvertFToS, "OpConvertFToS", .typed),
   (opConvertSToF, "OpConvertSToF", .typed), (opConvertUToF, "OpConvertUToF", .typed),
   (opFConvert, "OpFConvert", .typed), (opBitcast, "OpBitcast", .typed),
   (opSNegate, "OpSNegate", .typed), (opFNegate, "OpFNegate", .typed), (opIAdd, "OpIAdd", .typed),
   (opFAdd, "OpFAdd", .typed), (opISub, "OpISub", .typed), (opFSub, "OpFSub", .typed),
   (opIMul, "OpIMul", .typed), (opFMul, "OpFMul", .typed), (opUDiv, "OpUDiv", .typed),
   (opSDiv, "OpSDiv", .typed), (opFDiv, "OpFDiv", .typed), (opUMod, "OpUMod", .typed),
   (opSRem, "OpSRem", .typed), (opSMod, "OpSMod", .typed), (opFRem, "OpFRem", .typed),
   (opFMod, "OpFMod", .typed), (opVectorTimesScalar, "OpVectorTimesScalar", .typed),
   (opMatrixTimesScalar, "OpMatrixTimesScalar", .typed),
   (opVectorTimesMatrix, "OpVectorTimesMatrix", .typed),
   (opMatrixTimesVector, "OpMatrixTimesVector", .typed),
   (opMatrixTimesMatrix, "OpMatrixTimesMatrix", .typed), (opDot, "OpDot", .typed),
   (opAny, "OpAny", .typed), (opAll, "OpAll", .typed), (opLogicalEqual, "OpLogicalEqual", .typed),
   (opLogicalNotEqual, "OpLogicalNotEqual", .typed), (opLogicalOr, "OpLogicalOr", .typed),
   (opLogicalAnd, "OpLogicalAnd", .typed), (opLogicalNot, "OpLogicalNot", .typed),
   (opSelect, "OpSelect", .typed), (opIEqual, "OpIEqual", .typed), (opINotEqual, "OpINotEqual", .typed),
   (opUGreaterThan, "OpUGreaterThan", .typed), (opSGreaterThan, "OpSGreaterThan", .typed),
   (opUGreaterThanEqual, "OpUGreaterThanEqual", .typed),
   (opSGreaterThanEqual, "OpSGreaterThanEqual", .typed), (opULessThan, "OpULessThan", .typed),
   (opSLessThan, "OpSLessThan", .typed), (opULessThanEqual, "OpULessThanEqual", .typed),
   (opSLessThanEqual, "OpSLessThanEqual", .typed), (opFOrdEqual, "OpFOrdEqual", .typed),
   (opFOrdNotEqual, "OpFOrdNotEqual", .typed), (opFUnordNotEqual, "OpFUnordNotEqual", .typed),
   (opFOrdLessThan, "OpFOrdLessThan", .typed), (opFOrdGreaterThan, "OpFOrdGreaterThan", .typed),
   (opFOrdLessThanEqual, "OpFOrdLessThanEqual", .typed),
   (opFOrdGreaterThanEqual, "OpFOrdGreaterThanEqual", .typed),
   (opShiftRightLogical, "OpShiftRightLogical", .typed),
   (opShiftRightArithmetic, "OpShiftRightArithmetic", .typed),
   (opShiftLeftLogical, "OpShiftLeftLogical", .typed), (opBitwiseOr, "OpBitwiseOr", .typed),
   (opBitwiseXor, "OpBitwiseXor", .typed), (opBitwiseAnd, "OpBitwiseAnd", .typed),
   (opNot, "OpNot", .typed), (opLoopMerge, "OpLoopMerge", .plain),
   (opSelectionMerge, "OpSelectionMerge", .plain), (opLabel, "OpLabel", .result),
   (opBranch, "OpBranch", .plain), (opBranchConditional, "OpBranchConditional", .plain),
   (opKill, "OpKill", .plain), (opReturn, "OpReturn", .plain), (opReturnValue, "OpReturnValue", .plain),
   (opUnreachable, "OpUnreachable", .plain)]

/-- The name of an operation; one without a name is called by its number. -/
def mnemonic (op : Opcode) : Text :=
  match table.lookup op with
  | some (name, _) => name
  | none => "Op" ++ Text.ofNat op.code.toNat

def lead (op : Opcode) : Lead :=
  match table.lookup op with
  | some (_, lead) => lead
  | none => .plain

/-- Does the operation end a block? -/
def isTerminator (op : Opcode) : Bool :=
  [opBranch, opBranchConditional, opKill, opReturn, opReturnValue, opUnreachable].contains op

end Opcode

end Shading.Spirv
