import Shading.CommandLine.Flag
import Shading.Directory
import Shading.Spirv.Listing

/-! The disassembler as a program. -/
namespace Shading.CommandLine.Disassembler

/-- What the flags say. -/
structure Flags where
  output : Text := []
  stats : Bool := false

def flags : List (Flag Flags) :=
  [⟨"o", "output file (default: stdout)", .text [] fun v f => { f with output := v }⟩,
   ⟨"stats", "print instruction counts instead of the listing", .switch fun b f => { f with stats := b }⟩]

def usage : Text := "Usage: spvdis [options] <file.spv>\n" ++ Flag.descriptions flags

/-- How often each operation occurs, the most frequent first, and in the order of names otherwise. -/
def histogram (words : List UInt32) : Except Spirv.FormatError Text := do
  let (_, is) ← Spirv.decode words
  let names := is.map (·.opcode.mnemonic)
  let counts := names.eraseDups.map fun n => (n, names.count n)
  let inOrder (a b : Text × Nat) : Bool := b.2 < a.2 || (a.2 == b.2 && !b.1.before a.1)
  let line (c : Text × Nat) : Text := Text.padLeft 6 (Text.ofNat c.2) ++ " " ++ c.1 ++ "\n"
  let head : Text :=
    "; " ++ Text.ofNat is.length ++ " instructions, " ++ Text.ofNat words.length ++ " words\n"
  return head ++ (counts.mergeSort inOrder).flatMap line

private def refused (message : Text) (d : Directory) : Outcome :=
  { exit := 1, stderr := "Error: " ++ message ++ "\n", directory := d }

/-- Writes a text into a file, or shows it if there is none. -/
private def deliver (output text : Text) (d : Directory) : Outcome :=
  if output.isEmpty then { stdout := text, directory := d }
  else match d.write output text with
    | .ok d => { directory := d }
    | .error fault => refused fault.message d

/-- Runs the disassembler with some arguments in a directory. -/
def run (args : List Text) (d : Directory) : Outcome :=
  match Flag.parse flags {} args with
  | .error e => { exit := 2, stderr := e.message ++ usage, directory := d }
  | .ok (_, []) => { exit := 1, stderr := usage, directory := d }
  | .ok (f, input :: _) =>
    match d.read input with
    | .error fault => refused fault.message d
    | .ok data =>
      if data.length % 4 ≠ 0 then
        refused ("file size " ++ Text.ofNat data.length ++ " is not a multiple of 4") d
      else
        let words := Spirv.ofBytes data
        match if f.stats then histogram words else Spirv.listing words with
        | .error e => refused e.message d
        | .ok text => deliver f.output text d

end Shading.CommandLine.Disassembler
