import Shading.Check.Session
import Shading.Directory
import Shading.Parser

/-! Modules that are kept in memory. -/
namespace Shading

/-- A module as it was registered: its text, or the module itself. -/
inductive Registration
  | source (text : Text)
  | parsed (m : Module)

/-- Modules by name. Registrations are numbered, so that a module can be told from one that it replaces. -/
structure Registry where
  entries : List (Text × Nat × Registration) := []
  count : Nat := 0

namespace Registry

private def put (r : Registry) (name : Text) (content : Registration) : Registry :=
  { entries := (name, r.count + 1, content) :: r.entries.filter (·.1 != name), count := r.count + 1 }

/-- Registers the text of a module, in place of one of that name. -/
def register (r : Registry) (name source : Text) : Registry := r.put name (.source source)

/-- Registers a module under the name in its head. -/
def registerModule (r : Registry) (m : Option Module) : Except Failure Registry :=
  match m, (m.bind (·.metadata)).elim [] (·.name) with
  | none, _ | _, [] => .error (.plain "nzsl: cannot register a module without a name")
  | some m, name => .ok (r.put name (.parsed m))

def has (r : Registry) (name : Text) : Bool := r.entries.any (·.1 == name)

/-- The registered names in their order. -/
def names (r : Registry) : List Text := (r.entries.map (·.1)).mergeSort fun a b => !b.before a

/-- Parses the text of a module that stands in a named file. -/
def parseNamed (name source : Text) : Except Diagnostic Module := do
  Module.ofTokens (← tokenize name source)

/-- The module that is registered under a name, with the number of its registration. A text has to
declare the name it is registered under, or none. -/
def resolve (r : Registry) (name : Text) : Except Failure (Nat × Module) :=
  match r.entries.lookup name with
  | none => .error (.plain ("module " ++ name ++ " is not registered"))
  | some (n, .parsed m) => .ok (n, m)
  | some (n, .source text) =>
    match parseNamed name text with
    | .error d => .error (.diagnostic d)
    | .ok m =>
      let own := m.metadata.elim [] (·.name)
      if own.isEmpty || own == name then .ok (n, m)
      else .error (.plain ("module registered as " ++ name ++ " declares itself as " ++ own))

def resolver (r : Registry) : Resolver :=
  ⟨r.entries.map (·.1), fun name => (r.resolve name).map fun found => some found.2⟩

/-- Registers the module of a file under the name in its head, which must be there and new. -/
private def loadFile (r : Registry) (path content : Text) : Except Failure Registry := do
  let m ← (parseNamed path content).mapError fun d => .within path (.diagnostic d)
  let name := m.metadata.elim [] (·.name)
  if name.isEmpty then throw (.within path (.plain "module has no name and cannot be imported"))
  if r.has name then throw (.within path (.plain ("module " ++ name ++ " is already registered")))
  r.registerModule (some m)

/-- Registers files until there is a failure. -/
private def loadFiles (r : Registry) : List (Text × Text) → Registry × Option Failure
  | [] => (r, none)
  | (path, content) :: files =>
    match r.loadFile path content with
    | .ok r => r.loadFiles files
    | .error e => (r, some e)

/-- Registers the modules at or below a path. Those before a failure stay. -/
def loadDirectory (r : Registry) (d : Directory) (path : Text) : Registry × Option Failure :=
  match d.walk path with
  | .error fault => (r, some (.plain fault.message))
  | .ok files => r.loadFiles (files.filter fun f => (Text.ofString ".nzsl").isSuffixOf (Path.name f.1))

end Registry

/-- The resolver that has no module at all. -/
def Resolver.empty : Resolver := ⟨[], fun _ => .ok none⟩

end Shading
