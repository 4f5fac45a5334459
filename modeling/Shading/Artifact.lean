import Shading.Failure
import Shading.Glsl
import Shading.Parser
import Shading.Reserved
import Shading.Spirv

/-! What modules are compiled to, the phases in which that happens, and the modules compiled for a target. -/
namespace Shading

/-- A form of compiled modules. -/
inductive Target
  | spirv | glsl
  | reserved (code : Reserved 2)
deriving DecidableEq, Repr

namespace Target

def named : List Target := [spirv, glsl]

def ofCode (c : UInt8) : Target :=
  if h : 2 ≤ c then .reserved ⟨c, h⟩ else named.getD c.toNat .spirv

def code : Target → UInt8
  | .reserved c => c.code
  | t => (named.idxOf t).toUInt8

def text : Target → Text
  | .spirv => "spirv" | .glsl => "glsl"
  | .reserved c => "Target(" ++ Text.ofNat c.code.toNat ++ ")"

def ofName? (name : Text) : Option Target :=
  if name == Text.ofString "spv" then some .spirv else named.find? fun t => t.text == name

end Target

/-- A phase of a compilation. -/
inductive Phase
  | parse | check | generate
  | reserved (code : Reserved 3)
deriving DecidableEq, Repr

namespace Phase

def named : List Phase := [parse, check, generate]

def ofCode (c : UInt8) : Phase :=
  if h : 3 ≤ c then .reserved ⟨c, h⟩ else named.getD c.toNat .parse

def text : Phase → Text
  | .parse => "parse" | .check => "sanitize" | .generate => "generate"
  | .reserved c => "Phase(" ++ Text.ofNat c.code.toNat ++ ")"

end Phase

/-- Why a compilation has no result, and in which phase it failed. -/
structure CompileError where
  phase : Phase
  failure : Failure

namespace CompileError

def message (e : CompileError) : Text := "nzsl: " ++ e.failure.message

/-- The message with the line of the source that it is about, if it is about one. -/
def excerpt (e : CompileError) (source : Text) : Text :=
  match e.failure.diagnostic? with
  | some d => "nzsl: " ++ d.excerpt source
  | none => e.message

end CompileError

/-- How modules are compiled. The stages, the values of options and the lowerings that are given here
take the place of those in the settings of the target. -/
structure CompileSettings where
  target : Target := .spirv
  /-- the stages that are wanted, or none for all that the module has -/
  stages : List Stage := []
  values : OptionValues := {}
  resolver : Option Resolver := none
  splitBranches : Bool := false
  reduceLoops : Bool := false
  removeMatrixCasts : Bool := false
  spirv : Spirv.Settings := {}
  glsl : Glsl.Settings := {}

/-- What a module was compiled to. -/
structure Artifact where
  target : Target
  stages : StageSet
  /-- the checked module -/
  result : Module
  /-- the sources of the stages -/
  glsl : List (Stage × Text) := []
  spirv : Option (List UInt32) := none

namespace CompileSettings

/-- How a module is checked before it is compiled. -/
def check (s : CompileSettings) : CheckSettings :=
  { resolver := s.resolver, splitBranches := s.splitBranches, reduceLoops := s.reduceLoops,
    removeMatrixCasts := s.removeMatrixCasts, values := s.values }

end CompileSettings

namespace Artifact

private def missing (o : Obstacle) : Failure := (BackendError.located {} o).toFailure

/-- The stages that are asked for, which the module must have; if none is asked for, all that it has. -/
def selectStages (m : Module) (requested : List Stage) : Except Failure StageSet :=
  let available := StageSet.ofStages (m.entryPoints.filterMap (·.stage.value))
  match requested.find? fun s => !available.has s with
  | some s => .error (missing (.noEntryFor s))
  | none =>
    if requested.isEmpty then
      if available = .empty then .error (missing .noEntry) else .ok available
    else .ok (.ofStages requested)

/-- The source of one stage. -/
def stageSource (s : CompileSettings) (m : Module) (stage : Stage) : Except Failure (Stage × Text) :=
  match Glsl.generate (some m) { s.glsl with stage, values := s.values } with
  | .ok code => .ok (stage, code)
  | .error e => .error (.within (stage.text ++ " stage") e.toFailure)

/-- Generates the code of the stages of a checked module. -/
def generate (s : CompileSettings) (m : Module) : Except Failure Artifact := do
  let stages ← selectStages m s.stages
  match s.target with
  | .spirv =>
    let settings := { s.spirv with values := s.values, stages := stages.stages }
    let words ← (Spirv.generate (some m) settings).mapError BackendError.toFailure
    return { target := s.target, stages, result := m, spirv := some words }
  | .glsl => return { target := s.target, stages, result := m, glsl := ← stages.stages.mapM (stageSource s m) }
  | .reserved .. => throw (.plain ("unknown target " ++ s.target.text))

/-- Compiles a module. -/
def ofModule (m : Module) (s : CompileSettings) : Except CompileError Artifact := do
  let checked ← (m.check s.check).mapError fun e => ⟨.check, e.toFailure⟩
  (generate s checked).mapError fun e => ⟨.generate, e⟩

/-- Compiles the text of a module. -/
def ofSource (source : Text) (s : CompileSettings) : Except CompileError Artifact := do
  let m ← (Module.parse source).mapError fun d => ⟨.parse, .diagnostic d⟩
  ofModule m s

/-- The size of the binary module in bytes. -/
def size (a : Artifact) : Nat := a.spirv.elim 0 fun words => (Spirv.toBytes words).length

end Artifact

end Shading
