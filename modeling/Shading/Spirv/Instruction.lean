import Shading.Spirv.Opcode
import Shading.Text

/-! Texts and bytes as words of 32 bits, the lowest byte first. -/
namespace Shading.Spirv

/-- The word of four bytes. -/
def wordOf (a b c d : UInt8) : UInt32 :=
  a.toUInt32 ||| (b.toUInt32 <<< 8) ||| (c.toUInt32 <<< 16) ||| (d.toUInt32 <<< 24)

/-- The four bytes of a word. -/
def bytesOf (w : UInt32) : List UInt8 :=
  [w.toUInt8, (w >>> 8).toUInt8, (w >>> 16).toUInt8, (w >>> 24).toUInt8]

def toBytes (words : List UInt32) : Text := words.flatMap bytesOf

/-- The words of a text; bytes at its end that do not fill a word are left out. -/
def ofBytes : Text → List UInt32
  | a :: b :: c :: d :: rest => wordOf a b c d :: ofBytes rest
  | _ => []

/-- The words of a text that ends with a zero byte; the last word is filled up with zero bytes. -/
def textWords : Text → List UInt32
  | [] => [0]
  | [a] => [wordOf a 0 0 0]
  | [a, b] => [wordOf a b 0 0]
  | [a, b, c] => [wordOf a b c 0]
  | a :: b :: c :: d :: rest => wordOf a b c d :: textWords rest

/-- Reads a text up to its zero byte, or to the last word if there is none, and the words that follow. -/
def readText : List UInt32 → Text × List UInt32
  | [] => ([], [])
  | w :: ws =>
    let bytes := (bytesOf w).takeWhile (· != 0)
    if bytes.length < 4 then (bytes, ws)
    else
      let (more, rest) := readText ws
      (bytes ++ more, rest)

structure Version where
  major : UInt8
  minor : UInt8
deriving DecidableEq, Repr

namespace Version

def v1_3 : Version := ⟨1, 3⟩
def v1_4 : Version := ⟨1, 4⟩

/-- Is the version the other one or a later one? -/
def atLeast (v other : Version) : Bool :=
  if v.major ≠ other.major then v.major > other.major else v.minor ≥ other.minor

/-- Is the version one that modules can be written for? -/
def isSupported (v : Version) : Bool := v.major == 1 && v.minor ≤ 6

/-- The word that a module names its version with. -/
def word (v : Version) : UInt32 := (v.major.toUInt32 <<< 16) ||| (v.minor.toUInt32 <<< 8)

end Version

/-- An operation with the words that follow it. -/
structure Instruction where
  opcode : Opcode
  operands : List UInt32 := []
deriving DecidableEq, Repr

namespace Instruction

/-- How many words the instruction takes. -/
def size (i : Instruction) : Nat := i.operands.length + 1

/-- The words of an instruction, the first of which holds their number and the operation. -/
def encode (i : Instruction) : List UInt32 :=
  ((i.size.toUInt32 <<< 16) ||| i.opcode.code.toUInt32) :: i.operands

end Instruction

/-- The words that a module starts with. -/
structure Header where
  version : UInt32
  generator : UInt32
  /-- all numbers of results are below this one -/
  bound : UInt32
  schema : UInt32
deriving DecidableEq, Repr

def magic : UInt32 := 0x07230203

/-- The words of a module. -/
def encode (h : Header) (is : List Instruction) : List UInt32 :=
  magic :: h.version :: h.generator :: h.bound :: h.schema :: is.flatMap Instruction.encode

/-- Why words are no module. -/
inductive FormatError
  | short (size : Nat)
  | magic (word : UInt32)
  /-- the number of words of the instruction at an offset -/
  | wordCount (count offset : Nat)
deriving Repr

def FormatError.message : FormatError → Text
  | .short n => "spirv: invalid module: " ++ Text.ofNat n ++ " words is shorter than the header"
  | .magic w => "spirv: invalid module: magic number 0x" ++ Text.hex 8 w.toNat
  | .wordCount n offset =>
    "spirv: invalid module: bad word count " ++ Text.ofNat n ++ " at word " ++ Text.ofNat offset

/-- The instructions of words that start at an offset of a module. -/
def decodeFrom (offset : Nat) : List UInt32 → Except FormatError (List Instruction)
  | [] => .ok []
  | w :: ws =>
    let count := (w >>> 16).toNat
    if count = 0 || ws.length + 1 < count then .error (.wordCount count offset)
    else do
      let rest ← decodeFrom (offset + count) (ws.drop (count - 1))
      return ⟨⟨w.toUInt16⟩, ws.take (count - 1)⟩ :: rest
termination_by ws => ws.length
decreasing_by rw [List.length_drop, List.length_cons]; omega

/-- The header and the instructions of a module. -/
def decode : List UInt32 → Except FormatError (Header × List Instruction)
  | m :: version :: generator :: bound :: schema :: ws => do
    if m ≠ magic then throw (.magic m)
    return (⟨version, generator, bound, schema⟩, ← decodeFrom 5 ws)
  | ws => .error (.short ws.length)

end Shading.Spirv
