import Shading.Spirv.Enumerant
import Shading.Spirv.Instruction
import Shading.Text.Quoted

/-! Modules as assembly text, one instruction a line. -/
namespace Shading.Spirv

private def idText (n : UInt32) : Text := "%" ++ Text.ofNat n.toNat

private def literal (n : UInt32) : Text := Text.ofNat n.toNat

private def decorationTexts : List UInt32 → List Text
  | [] => []
  | d :: args =>
    enumerant Decoration.names d ::
      match args with
      | b :: _ => if d = Decoration.builtIn then [enumerant BuiltIn.names b] else args.map literal
      | [] => []

/-- The operands behind the result of an instruction. The flags of an image are read on even if its
words end before them. -/
private def operandTexts (op : Opcode) (operands beyond : List UInt32) : List Text :=
  match op, operands with
  | .opCapability, c :: _ => [enumerant Capability.names c]
  | .opExtension, ws | .opExtInstImport, ws | .opString, ws => [Quoted.text (readText ws).1]
  | .opSource, language :: version :: file =>
    enumerant SourceLanguage.names language :: literal version :: file.map idText
  | .opSource, _ => []
  | .opExtInst, set :: instruction :: args => idText set :: literal instruction :: args.map idText
  | .opMemoryModel, a :: m :: _ => [enumerant AddressingModel.names a, enumerant MemoryModel.names m]
  | .opEntryPoint, model :: f :: ws =>
    let (name, interfaces) := readText ws
    enumerant ExecutionModel.names model :: idText f :: Quoted.text name :: interfaces.map idText
  | .opExecutionMode, entry :: mode :: args =>
    idText entry :: enumerant ExecutionMode.names mode :: args.map literal
  | .opName, target :: ws => [idText target, Quoted.text (readText ws).1]
  | .opMemberName, target :: m :: ws => [idText target, literal m, Quoted.text (readText ws).1]
  | .opDecorate, target :: ws => idText target :: decorationTexts ws
  | .opMemberDecorate, target :: m :: ws => idText target :: literal m :: decorationTexts ws
  | .opTypeInt, ws | .opTypeFloat, ws | .opConstant, ws => ws.map literal
  | .opTypeVector, component :: n :: _ => [idText component, literal n]
  | .opTypeMatrix, column :: n :: _ => [idText column, literal n]
  | .opTypeImage, sampled :: dim :: ws =>
    [idText sampled, enumerant Dim.names dim] ++ ((ws ++ beyond).take 4).map literal ++
      [Text.ofString "Unknown"]
  | .opTypePointer, storage :: base :: _ => [enumerant StorageClass.names storage, idText base]
  | .opVariable, storage :: init => enumerant StorageClass.names storage :: init.map idText
  | .opFunction, _ :: type :: _ => [Text.ofString "None", idText type]
  | .opCompositeExtract, composite :: indices => idText composite :: indices.map literal
  | .opVectorShuffle, a :: b :: components => idText a :: idText b :: components.map literal
  | .opArrayLength, record :: m :: _ => [idText record, literal m]
  | .opImageSampleExplicitLod, image :: coordinate :: _ :: ws =>
    idText image :: idText coordinate :: Text.ofString "Lod" :: ws.map idText
  | .opSelectionMerge, merge :: _ => [idText merge, Text.ofString "None"]
  | .opLoopMerge, merge :: next :: control :: _ =>
    [idText merge, idText next, enumerant LoopControl.names control]
  | _, ws => ws.map idText

/-- An instruction as a line, with the words that follow it in the stream. -/
def Instruction.line (i : Instruction) (beyond : List UInt32) : Text :=
  let written (start : Text) (args : List Text) : Text :=
    start ++ Text.join " " (i.opcode.mnemonic :: args) ++ "\n"
  match i.opcode.lead, i.operands with
  | .typed, type :: id :: ws =>
    written (idText id ++ " = ") (idText type :: operandTexts i.opcode ws beyond)
  | .typed, [id] | .result, [id] => written (idText id ++ " = ") (operandTexts i.opcode [] beyond)
  | .result, id :: ws => written (idText id ++ " = ") (operandTexts i.opcode ws beyond)
  | _, ws => written [] (operandTexts i.opcode ws beyond)

private def lines (stream : List UInt32) : List Instruction → Text
  | [] => []
  | i :: is =>
    let beyond := stream.drop i.size
    i.line beyond ++ lines beyond is

private def upper (b : UInt8) : UInt8 := if Text.byte 'a' ≤ b then b - 32 else b

private def headerText (h : Header) : Text :=
  "; SPIR-V\n; Version: " ++ Text.ofNat ((h.version >>> 16) &&& 0xFF).toNat ++ "." ++
    Text.ofNat ((h.version >>> 8) &&& 0xFF).toNat ++
  "\n; Generator: 0x" ++ (Text.hex 8 h.generator.toNat).map upper ++
  "\n; Bound: " ++ Text.ofNat h.bound.toNat ++ "\n; Schema: " ++ Text.ofNat h.schema.toNat ++ "\n"

/-- The assembly text of a module. -/
def listing (words : List UInt32) : Except FormatError Text := do
  let (h, is) ← decode words
  return headerText h ++ lines (words.drop 5) is

end Shading.Spirv
