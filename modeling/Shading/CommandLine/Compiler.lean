import Shading.Artifact
import Shading.CommandLine.Flag
import Shading.CommandLine.Numeral
import Shading.Directory
import Shading.Registry
import Shading.Spirv.Listing
import Shading.Wire.Encoder

/-! The compiler as a program. -/
namespace Shading.CommandLine.Compiler

/-- What the flags say. -/
structure Flags where
  target : Text := "spirv"
  output : Text := []
  stages : Text := []
  defines : List Text := []
  includes : List Text := []
  lenient : Bool := false
  splitBranches : Bool := false
  reduceLoops : Bool := false
  removeMatrixCasts : Bool := false
  es : Bool := false
  glslVersion : Int := 0
  debug : Bool := false
  verbose : Bool := false
  version : Bool := false

def flags : List (Flag Flags) :=
  [⟨"target", "output format: spirv, spvasm, glsl, nzsl or nzslb",
     .text "spirv" fun v f => { f with target := v }⟩,
   ⟨"o", "output file (default: stdout)", .text [] fun v f => { f with output := v }⟩,
   ⟨"stage", "comma-separated stages to compile: vert, frag, compute (default: all)",
     .text [] fun v f => { f with stages := v }⟩,
   ⟨"D", "set an option, as name=value (repeatable)",
     .list fun v f => { f with defines := f.defines ++ [v] }⟩,
   ⟨"I", "directory of importable modules (repeatable)",
     .list fun v f => { f with includes := f.includes ++ [v] }⟩,
   ⟨"partial", "tolerate unresolved imports (nzsl and nzslb targets)",
     .switch fun b f => { f with lenient := b }⟩,
   ⟨"split-branches", "split multi-branch conditionals into nested ones",
     .switch fun b f => { f with splitBranches := b }⟩,
   ⟨"reduce-loops", "rewrite for loops as while loops", .switch fun b f => { f with reduceLoops := b }⟩,
   ⟨"remove-matrix-cast", "rewrite matrix casts as column constructions",
     .switch fun b f => { f with removeMatrixCasts := b }⟩,
   ⟨"es", "generate GLSL ES", .switch fun b f => { f with es := b }⟩,
   ⟨"glsl-version", "GLSL version, such as 330 or 450 (default: 330, or 300 with -es)",
     .number fun n f => { f with glslVersion := n }⟩,
   ⟨"debug", "include debug names in SPIR-V", .switch fun b f => { f with debug := b }⟩,
   ⟨"v", "report progress on stderr", .switch fun b f => { f with verbose := b }⟩,
   ⟨"version", "print version", .switch fun b f => { f with version := b }⟩]

def usage : Text :=
  "Usage: nzslc [options] <input>\n\n" ++ "Compiles an nzsl module to SPIR-V or GLSL.\n\n" ++
  "Options:\n" ++ Flag.descriptions flags ++ "\nExamples:\n" ++
  "  nzslc shader.nzsl                              # Compile to SPIR-V on stdout\n" ++
  "  nzslc -o shader.spv shader.nzsl                # Compile to SPIR-V\n" ++
  "  nzslc -target glsl -o shader.glsl shader.nzsl  # One GLSL file per stage\n" ++
  "  nzslc -I modules -D UseTint=false shader.nzsl  # Imports and options\n"

/-- What the compiler writes: code for a target, its assembly, or the checked module as text or encoded. -/
inductive Format
  | target (t : Target)
  | assembly
  | source
  | encoded
deriving DecidableEq

def Format.ofName? (name : Text) : Option Format :=
  if name == Text.ofString "spvasm" then some .assembly
  else if name == Text.ofString "nzsl" then some .source
  else if name == Text.ofString "nzslb" then some .encoded
  else (Target.ofName? name).map .target

/-- A file that the compiler writes. One of several names its stage. -/
structure Output where
  stage : Option Stage := none
  path : Text
  data : Text

/-- Steps of a run, which report to the error stream and may end it with a last message. -/
abbrev Run := ExceptT Text (StateM Text)

private def report (f : Flags) (line : Text) : Run Unit :=
  if f.verbose then modify (· ++ "nzslc: " ++ line ++ "\n") else return

/-- Takes over a result; the message of an error ends the run. -/
private def orEnd {ε α : Type} (message : ε → Text) : Except ε α → Run α
  | .ok a => return a
  | .error e => throw (message e)

private def refused (message : Text) : Text := "Error: " ++ message ++ "\n"

/-- The stages of a list with commas; an empty list asks for none. -/
def stageList (t : Text) : Except Text (List Stage) :=
  if t.isEmpty then .ok []
  else (Text.cut (Text.byte ',') t).mapM fun name =>
    match Stage.ofName? (Blank.trim name) with
    | some s => .ok s
    | none => .error ("unknown stage " ++ Quoted.text name)

/-- The modules that can be imported. -/
private def library (d : Directory) (r : Registry) : List Text → Run Registry
  | [] => return r
  | dir :: dirs =>
    match r.loadDirectory d dir with
    | (r, none) => library d r dirs
    | (_, some e) => throw (refused e.message)

/-- How the flags say that modules are compiled. -/
private def setup (f : Flags) (d : Directory) : Run (Format × CompileSettings) := do
  let format ← match Format.ofName? f.target with
    | some format => pure format
    | none => throw (refused ("unknown target " ++ Quoted.text f.target))
  let target := match format with
    | .target t => t
    | _ => .spirv
  let stages ← orEnd refused (stageList f.stages)
  let values ← orEnd (fun e => refused (DefinitionError.message e)) (f.defines.mapM definition)
  let resolver ←
    if f.includes.isEmpty then pure none
    else do
      let r ← library d {} f.includes
      report f ("loaded modules: " ++ Text.join ", " r.names)
      pure (some r.resolver)
  let version ←
    if f.glslVersion ≠ 0 then
      orEnd (fun e => refused (Failure.message e)) (Glsl.Version.ofNumber f.glslVersion f.es)
    else pure (if f.es then Glsl.Version.es300 else .v330)
  return (format,
    { target, stages, resolver, values := values.foldl (fun o (name, v) => o.set name v) {},
      splitBranches := f.splitBranches, reduceLoops := f.reduceLoops,
      removeMatrixCasts := f.removeMatrixCasts,
      spirv := { debug := f.debug || format == .assembly }, glsl := { es := f.es, version } })

/-- The lower-case form of a character, for those that occur in the ending of a file. -/
private def folded (c : Char) : Char := if c.toNat = 0x17F then 's' else c.toLower

/-- Does the path name an encoded module? -/
def isEncoded (path : Text) : Bool :=
  ((Rune.ofText (Path.extension path)).map fun r => folded r.char) == ".nzslb".toList

/-- The last message of a run that failed in a compilation. Encoded modules have no source to show. -/
private def failed (input data : Text) (e : CompileError) : Text :=
  if isEncoded input then "Compilation error: " ++ e.message ++ "\n"
  else "Compilation error (" ++ e.phase.text ++ "): " ++ e.excerpt data ++ "\n"

private def failedPlainly (message : Text) : Text := "Compilation error: " ++ message ++ "\n"

private def load (f : Flags) (input data : Text) : Run Module := do
  if isEncoded input then
    let m ← orEnd (fun e => failedPlainly (Wire.DecodeError.message e)) (Module.decode data)
    report f ("decoded " ++ input)
    return m
  let m ← orEnd (fun d => failed input data ⟨.parse, .diagnostic d⟩) (Module.parse data)
  report f ("parsed " ++ input)
  return m

/-- The path of one of several stages. -/
def stagePath (path : Text) (s : Stage) : Text :=
  let ending := Path.extension path
  path.take (path.length - ending.length) ++ "." ++ s.text ++ ending

private def stageOutput (f : Flags) (several : Bool) (s : Stage) (code : Text) : Output :=
  if several then { stage := some s, path := if f.output.isEmpty then [] else stagePath f.output s, data := code }
  else { path := f.output, data := code }

/-- The checked module as text or encoded. -/
private def serialize (f : Flags) (format : Format) (s : CompileSettings) (input data : Text) (m : Module) :
    Run (List Output) := do
  let checked ← orEnd (fun e => failed input data ⟨.check, CheckError.toFailure e⟩)
    (m.check { s.check with lenient := f.lenient })
  report f "sanitized module"
  if format == .encoded then return [{ path := f.output, data := checked.encode }]
  let text ← orEnd (fun e => failedPlainly (WriteError.message e)) (Module.canonicalText (some checked))
  return [{ path := f.output, data := text }]

/-- The files that a module is compiled to. -/
private def outputs (f : Flags) (format : Format) (s : CompileSettings) (input data : Text) :
    Run (List Output) := do
  let m ← load f input data
  if format == .source || format == .encoded then return ← serialize f format s input data m
  let a ← orEnd (failed input data) (Artifact.ofModule m s)
  a.stages.stages.forM fun stage => report f ("compiled " ++ stage.text ++ " stage")
  match format, a.spirv with
  | .assembly, some words =>
    let text ← orEnd (fun e => failedPlainly (Spirv.FormatError.message e)) (Spirv.listing words)
    return [{ path := f.output, data := text }]
  | _, some words => return [{ path := f.output, data := Spirv.toBytes words }]
  | _, none => return a.glsl.map fun (stage, code) => stageOutput f (a.glsl.length > 1) stage code

/-- Writes files one after the other until one cannot be written. -/
private def writeAll (d : Directory) : List Output → Directory × Option Directory.Fault
  | [] => (d, none)
  | o :: os =>
    match d.write o.path o.data with
    | .ok d => writeAll d os
    | .error fault => (d, some fault)

private def shown (o : Output) : Text :=
  match o.stage with
  | some s => "// " ++ s.text ++ "\n" ++ o.data
  | none => o.data

private def success (input : Text) (o : Output) : Text :=
  "Successfully compiled " ++ input ++ " to " ++ o.path ++ " (" ++ Text.ofNat o.data.length ++ " bytes)\n"

/-- Writes the files that were asked for, or shows them if no file was. -/
private def deliver (f : Flags) (input : Text) (os : List Output) (d : Directory) (stderr : Text) : Outcome :=
  if f.output.isEmpty then { stdout := os.flatMap shown, stderr, directory := d }
  else match writeAll d os with
    | (d, some fault) =>
      { exit := 1, stderr := stderr ++ "Error writing output: " ++ fault.message ++ "\n", directory := d }
    | (d, none) => { stdout := os.flatMap (success input), stderr, directory := d }

private def compileFile (f : Flags) (input : Text) (d : Directory) : Run (List Output) := do
  let (format, s) ← setup f d
  let data ← orEnd (fun fault => "Error reading file: " ++ Directory.Fault.message fault ++ "\n") (d.read input)
  outputs f format s input data

/-- Runs the compiler with some arguments in a directory. -/
def run (args : List Text) (d : Directory) : Outcome :=
  match Flag.parse flags {} args with
  | .error e => { exit := if e.isHelp then 0 else 2, stderr := e.message ++ usage, directory := d }
  | .ok (f, rest) =>
    if f.version then { stdout := "nzslc version 0.1.0-dev\n", directory := d }
    else match rest with
      | [] => { exit := 1, stderr := "Error: no input file specified\n" ++ usage, directory := d }
      | input :: _ =>
        match (compileFile f input d).run [] with
        | (.error last, stderr) => { exit := 1, stderr := stderr ++ last, directory := d }
        | (.ok os, stderr) => deliver f input os d stderr

end Shading.CommandLine.Compiler
