import Shading.Check.Statement

/-! Checking modules: names are resolved, expressions get their types, and what is wrong is refused. -/
namespace Shading

namespace Check

/-- The head of a module, which is of the first version if it names none. -/
def headOf (m : Module) : Metadata :=
  let metadata := m.metadata.getD { version := 0 }
  if metadata.version = 0 then { metadata with version := 100 } else metadata

/-- Checks the statements of a module in the scope of the module. -/
def body (load : Loader) (m : Module) : Check Module := do
  let metadata := headOf m
  if 100 < metadata.version then reject {} (.languageVersion metadata.version)
  let block := m.root.getD {}
  let body ← inScope (statements load block.body)
  return { metadata, imported := (← getDraft).imports, root := some { block with body } }

/-- The module that a name stands for, or the reason why there is none. -/
def find (name : Text) : Check (Except Text Module) := do
  match (← getSession).previous.lookup name with
  | some m => return .ok m
  | none =>
    match (← read).settings.resolver with
    | none => return .error "no module resolver"
    | some r =>
      match r.find name with
      | .error e => return .error e.message
      | .ok none => return .error "module not found"
      | .ok (some m) => return .ok m

/-- Checks a module on its own, in the session of the module that imports it. -/
def separately (name : Text) (act : Check Module) : Check Exported := fun site state =>
  let started := { state.session with inProgress := name :: state.session.inProgress }
  match act { settings := site.settings } { session := started } with
  | .error e => .error (.within name e)
  | .ok (m, done) =>
    let exported := ⟨m, done.draft.exports⟩
    let session :=
      { done.session with
        inProgress := done.session.inProgress.erase name
        finished := done.session.finished ++ [(name, exported)] }
    .ok (exported, { state with session })

/-- Checks an imported module once in a session. What it imports itself is left to another loader. -/
def importing (inner : Loader) : Loader := fun name span => do
  let session ← getSession
  if session.missing.contains name then return none
  if let some m := session.finished.lookup name then return some m
  if session.inProgress.contains name then reject span (.cyclicImport name)
  match ← find name with
  | .ok m => return some (← separately name (body inner m))
  | .error reason =>
    if !(← read).settings.lenient then reject span (.missingImport name reason)
    modifySession fun s => { s with missing := name :: s.missing }
    return none

/-- Imports modules, nested as deeply as the given number says. -/
def loader : Nat → Loader
  | 0 => fun name span => reject span (.importDepth name)
  | depth + 1 => importing (loader depth)

end Check

namespace Module

/-- Resolves the names of a module, finds the type of every expression, refuses what is wrong and
applies the lowerings that are asked for. Imported modules are checked along with it; each of them
comes after those that it imports. No chain of imports can be longer than there are modules. -/
def check (m : Module) (settings : CheckSettings) : Except CheckError Module := do
  let session := Check.Session.reserve {} m
  let own := (m.metadata.elim [] (·.name))
  let session := { session with inProgress := if own.isEmpty then [] else [own] }
  let depth := m.imported.length + (settings.resolver.elim 0 (·.names.length)) + 1
  let (result, state) ← Check.body (Check.loader depth) m { settings } { session }
  return { result with imported := state.session.finished.map fun f => (f.1, f.2.result) }

end Module

end Shading
