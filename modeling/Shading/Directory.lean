import Shading.Text

/-! Paths of files, as they are written. -/
namespace Shading.Path

def slash : UInt8 := Text.byte '/'

/-- The path without needless parts: empty ones, `.`, and `..` after a name. -/
private def resolve (rooted : Bool) : List Text → List Text → List Text
  | done, [] => done.reverse
  | done, part :: parts =>
    if part.isEmpty || part == Text.ofString "." then resolve rooted done parts
    else if part == Text.ofString ".." then
      match done with
      | [] => resolve rooted (if rooted then [] else [part]) parts
      | last :: before =>
        if last == Text.ofString ".." then resolve rooted (part :: done) parts
        else resolve rooted before parts
    else resolve rooted (part :: done) parts

/-- The shortest path that leads to the same place if no part of it is a link. -/
def clean (path : Text) : Text :=
  let rooted := path.head? == some slash
  let plain := Text.join "/" (resolve rooted [] (Text.cut slash path))
  if rooted then slash :: plain else if plain.isEmpty then Text.ofString "." else plain

/-- A name inside a folder. -/
def join (folder name : Text) : Text := clean (folder ++ "/" ++ name)

/-- The last part of a path. -/
def name (path : Text) : Text := ((Text.cut slash path).filter (!·.isEmpty)).getLastD []

/-- What stands from the last point of the last part on. -/
def extension (path : Text) : Text :=
  let last := (Text.cut slash path).getLastD []
  let ending := (last.reverse.takeWhile (· != Text.byte '.')).reverse
  if ending.length < last.length then Text.byte '.' :: ending else []

end Shading.Path

namespace Shading

/-- Files by the names of the folders that they are in, from the outermost on, and their own. -/
structure Directory where
  files : List (List Text × Text) := []
  /-- folders besides those that files are in -/
  folders : List (List Text) := []
  /-- the folder that paths start from -/
  here : List Text := []

namespace Directory

/-- Why there is no access to a path. -/
inductive Cause
  | missing
  | notFolder
  | isFolder
  | invalid
  | tooLong
deriving DecidableEq, Repr

def Cause.text : Cause → Text
  | .missing => "no such file or directory"
  | .notFolder => "not a directory"
  | .isFolder => "is a directory"
  | .invalid => "invalid argument"
  | .tooLong => "file name too long"

/-- What failed with a path, and why. -/
structure Fault where
  action : Text
  path : Text
  cause : Cause

def Fault.message (f : Fault) : Text := f.action ++ " " ++ f.path ++ ": " ++ f.cause.text

/-- How many bytes a name may have. -/
def longestName : Nat := 255

/-- How many bytes a path may have. -/
def longestPath : Nat := 4095

/-- What a path leads to. -/
inductive Entry
  | file (path : List Text) (content : Text)
  | folder (path : List Text)
  /-- a file that could be there, in a folder that is -/
  | vacant (path : List Text)
  /-- the place of a file, with a slash behind it as behind a folder; why there is no such folder -/
  | slashed (cause : Cause)

/-- Is there a folder? The one that paths start from and those around it are there. -/
def hasFolder (d : Directory) (path : List Text) : Bool :=
  (d.here :: d.folders ++ d.files.map (·.1.dropLast)).any path.isPrefixOf

/-- Follows the parts of a path from a folder on. Only slashes may follow the last name. -/
private def follow (d : Directory) : List Text → List Text → Except Cause Entry
  | folder, [] => .ok (.folder folder)
  | folder, part :: parts =>
    if part.isEmpty || part == Text.ofString "." then follow d folder parts
    else if part == Text.ofString ".." then follow d folder.dropLast parts
    else
      let inner := folder ++ [part]
      let cause : Cause :=
        if longestName < part.length then .tooLong
        else if (d.files.lookup inner).isSome then .notFolder else .missing
      if d.hasFolder inner then follow d inner parts
      else if !parts.isEmpty then
        if parts.all List.isEmpty then .ok (.slashed cause) else .error cause
      else if cause = .tooLong then .error cause
      else match d.files.lookup inner with
        | some content => .ok (.file inner content)
        | none => .ok (.vacant inner)

/-- What a path leads to. -/
private def find (d : Directory) (path : Text) : Except Cause Entry :=
  if path.contains 0 then .error .invalid
  else if path.isEmpty then .error .missing
  else if longestPath < path.length then .error .tooLong
  else follow d (if path.head? == some Path.slash then [] else d.here) (Text.cut Path.slash path)

/-- What is there at a path. -/
private def existing (d : Directory) (action path : Text) : Except Fault Entry :=
  match d.find path with
  | .ok (.vacant _) => .error ⟨action, path, .missing⟩
  | .ok (.slashed cause) | .error cause => .error ⟨action, path, cause⟩
  | .ok e => .ok e

/-- The content of a file. -/
def read (d : Directory) (path : Text) : Except Fault Text := do
  match ← d.existing "open" path with
  | .file _ content => return content
  | _ => throw ⟨"read", path, .isFolder⟩

/-- Writes a file, in place of one that is there. Its folder has to be there. -/
def write (d : Directory) (path content : Text) : Except Fault Directory :=
  let put (place : List Text) : Directory :=
    { d with files := d.files.filter (·.1 != place) ++ [(place, content)] }
  match d.find path with
  | .ok (.file place _) | .ok (.vacant place) => .ok (put place)
  | .ok (.folder _) | .ok (.slashed _) => .error ⟨"open", path, .isFolder⟩
  | .error cause => .error ⟨"open", path, cause⟩

/-- The names in a folder in their order, each once. -/
private def names (d : Directory) (folder : List Text) : List Text :=
  let inner := (d.folders ++ d.files.map (·.1)).filterMap fun p =>
    if folder.isPrefixOf p then p[folder.length]? else none
  inner.eraseDups.mergeSort fun a b => !b.before a

/-- The files below a folder with their paths, in the order of the names at each step. No path in the
directory is longer than the given depth. -/
private def below (d : Directory) : Nat → List Text → Text → List (Text × Text)
  | 0, _, _ => []
  | depth + 1, folder, path =>
    (d.names folder).flatMap fun name =>
      let place := folder ++ [name]
      match d.files.lookup place with
      | some content => [(Path.join path name, content)]
      | none => below d depth place (Path.join path name)

/-- The files at or below a path. -/
def walk (d : Directory) (path : Text) : Except Fault (List (Text × Text)) := do
  match ← d.existing "lstat" path with
  | .file _ content => return [(path, content)]
  | .folder place =>
    let depth := ((d.folders ++ d.files.map (·.1)).map List.length).foldl max 0
    return d.below depth place path
  | .vacant _ | .slashed _ => return []

end Directory

end Shading

namespace Shading.CommandLine

structure Outcome where
  exit : Nat := 0
  stdout : Text := []
  stderr : Text := []
  directory : Directory := {}

end Shading.CommandLine
