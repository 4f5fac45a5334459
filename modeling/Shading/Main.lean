import Shading.CommandLine.Compiler
import Shading.CommandLine.Disassembler

/-! The programs. The first argument tells which of the two is meant, the compiler or the disassembler. -/
namespace Shading.CommandLine

/-- The names of the folders around a path and its own. -/
private def parts (path : String) : List Text := (Text.cut Path.slash path).filter (!·.isEmpty)

private def pathText (place : List Text) : String :=
  "/" ++ String.intercalate "/" (place.map fun t => String.ofList ((Rune.ofText t).map Rune.char))

/-- Adds what is at or below a path, and the folder that it is in. -/
private partial def load (path : String) (d : Directory) : IO Directory := do
  let here ← IO.currentDir
  let file := here / path
  if ← file.isDir then
    let entries ← file.readDir
    entries.foldlM (fun d e => load e.path.toString d) { d with folders := parts file.toString :: d.folders }
  else if ← file.pathExists then
    let content ← IO.FS.readBinFile file
    return { d with files := (parts (← IO.FS.realPath file).toString, content.data.toList) :: d.files }
  else
    match file.parent with
    | some folder =>
      if ← folder.isDir then return { d with folders := parts folder.toString :: d.folders } else return d
    | none => return d

/-- What the arguments may speak of: each of them may be a path, and so may what follows an equals sign. -/
private def snapshot (args : List String) : IO Directory := do
  let here := parts (← IO.currentDir).toString
  let paths := args ++ args.flatMap fun a => (a.splitOn "=").drop 1
  (paths.filter (!·.isEmpty)).foldlM (fun d p => load p d) { here }

/-- Runs a program, writes the files that it changes and shows what it says. -/
private def perform (program : List Text → Directory → Outcome) (args : List String) : IO UInt32 := do
  let before ← snapshot args
  let outcome := program (args.map Text.ofString) before
  for (place, content) in outcome.directory.files do
    if before.files.lookup place != some content then
      IO.FS.writeBinFile (pathText place) ⟨content.toArray⟩
  (← IO.getStdout).write ⟨outcome.stdout.toArray⟩
  (← IO.getStderr).write ⟨outcome.stderr.toArray⟩
  return outcome.exit.toUInt32

end Shading.CommandLine

open Shading.CommandLine in
def main (args : List String) : IO UInt32 :=
  match args with
  | "spvdis" :: args => perform Disassembler.run args
  | "nzslc" :: args => perform Compiler.run args
  | args => perform Compiler.run args
