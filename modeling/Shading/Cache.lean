import Shading.Artifact
import Shading.Wire

/-! Compiled modules that are kept for when they are asked for again. -/
namespace Shading

-- What a compilation depends on, apart from imported modules, as one text. Texts stand behind their lengths, so that
-- neighbours cannot run into each other.
namespace CacheKey

open Wire (uvarint)

def field (t : Text) : Text := uvarint t.length ++ t

def flag (b : Bool) : Text := uvarint b.toNat

/-- A value by its type and its text. -/
def value : Value → Text
  | .absent => []
  | v => field v.type.text ++ field v.text

def entry (e : UInt32 × Value) : Text := uvarint e.1.toNat ++ value e.2

def optionValues (o : OptionValues) : Text := uvarint o.entries.length ++ o.entries.flatMap entry

def bindingPoint (b : (UInt32 × UInt32) × UInt32) : Text :=
  uvarint b.1.1.toNat ++ (uvarint b.1.2.toNat ++ uvarint b.2.toNat)

/-- What counts for a binary module. -/
def spirv (s : Spirv.Settings) : Text :=
  uvarint s.version.major.toNat ++ (uvarint s.version.minor.toNat ++ (flag s.debug ++
    (uvarint s.capabilities.length ++ s.capabilities.flatMap fun c => uvarint c.toNat)))

/-- What counts for the sources of stages. -/
def glsl (s : Glsl.Settings) : Text :=
  uvarint s.version.major.toNat ++ (uvarint s.version.minor.toNat ++ (flag s.version.es ++ (flag s.es ++
    (field s.entryPoint ++ (flag s.flipY ++ (flag s.remapZ ++
      (uvarint s.bindings.entries.length ++ s.bindings.entries.flatMap bindingPoint)))))))

/-- The settings of the target; those of the other one do not matter. -/
def target (s : CompileSettings) : Text :=
  match s.target with
  | .spirv => spirv s.spirv
  | .glsl => glsl s.glsl
  | .reserved .. => []

def ofSettings (name source : Text) (s : CompileSettings) : Text :=
  field name ++ (field source ++ (uvarint s.target.code.toNat ++ (uvarint (StageSet.ofStages s.stages).bits.toNat ++
    (optionValues s.values ++ (flag s.splitBranches ++ (flag s.reduceLoops ++ (flag s.removeMatrixCasts ++
      target s)))))))

end CacheKey

/-- Compiled modules by what they were compiled from. Imports are resolved in one way for all of them. -/
structure Cache where
  resolver : Option Resolver := none
  /-- what keys are replaced by when they are kept -/
  digest : Text → Text := id
  /-- each with the number of the compilation that made it -/
  entries : List (Text × Nat × Artifact) := []
  hits : Nat := 0
  misses : Nat := 0

namespace Cache

/-- The compiled module, with the number of the compilation that made it. One that is not there yet is
compiled and kept; a failure is not kept. -/
def compile (c : Cache) (name source : Text) (s : CompileSettings) :
    Except CompileError (Nat × Artifact) × Cache :=
  let s := { s with resolver := c.resolver }
  let key := c.digest (CacheKey.ofSettings name source s)
  match c.entries.lookup key with
  | some found => (.ok found, { c with hits := c.hits + 1 })
  | none =>
    let c := { c with misses := c.misses + 1 }
    match Artifact.ofSource source s with
    | .error e => (.error e, c)
    | .ok a => (.ok (c.misses, a), { c with entries := (key, c.misses, a) :: c.entries })

/-- Drops all that is kept. -/
def purge (c : Cache) : Cache := { c with entries := [] }

end Cache

end Shading
