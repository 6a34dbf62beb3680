import Conform.Files.Basic
import Conform.Files.Pattern

/-! The paths that a pattern stands for, in the order of their names, directory by directory. -/

namespace Conform

structure SearchError where
  directory : FilePath
  error : FileError
  deriving DecidableEq, Repr

def SearchError.message (e : SearchError) : String :=
  "attempting to read `" ++ e.directory ++ "` resulted in an error: " ++ e.error.message

namespace Files

variable {m : Type → Type} [Monad m]

/-- A path that a search has come to. An entry of a directory is known for what it is even if its
path is too long to be opened. -/
structure Found where
  path : FilePath
  isDirectory : Bool
  deriving DecidableEq, Repr

def lookAt (files : Files m) (p : FilePath) : ExceptT SearchError m Found :=
  return ⟨p, ← files.isDirectory p⟩

def Found.ofEntry (directory : FilePath) (e : DirectoryEntry) : Found :=
  ⟨directory.entry e.name, e.isDirectory⟩

/-- No path that can be opened goes down further. -/
def depthLimit : Nat := 4096

def sortedEntries (files : Files m) (f : Found) : ExceptT SearchError m (List DirectoryEntry) := do
  if f.isDirectory then
    match ← files.entries f.path with
    | .ok es => return es.mergeSort (fun a b => decide (a.name ≤ b.name))
    | .error e => throw ⟨f.path, e⟩
  else return []

/-- What `visit` finds at all that is below a directory. It comes to a directory before its
contents. -/
def searchBelow (files : Files m) (visit : String → Found → ExceptT SearchError m (List FilePath)) :
    Nat → Found → ExceptT SearchError m (List FilePath)
  | 0, _ => return []
  | depth + 1, f => do
    (← files.sortedEntries f).flatMapM fun e => do
      let child := Found.ofEntry f.path e
      return (← visit e.name child) ++ (← files.searchBelow visit depth child)

/-- The two names that every directory has are found only by a pattern that opens with a dot. -/
def dotNames : List Pattern.Token → List String
  | .char '.' :: ts => ["..", "."].filter fun name => Pattern.accepts (.char '.' :: ts) name.toList
  | _ => []

def follow (files : Files m) (directoriesOnly : Bool) :
    List Pattern.Step → Found → ExceptT SearchError m (List FilePath)
  | [], f => return if directoriesOnly && !f.isDirectory then [] else [f.path]
  | .name s :: steps, f => do
    let next := f.path.entry s
    let there ← if s = "." || s = ".." then pure f.isDirectory else files.isPresent next
    if there then files.follow directoriesOnly steps (← files.lookAt next) else return []
  | .wild ts :: steps, f => do
    let es ← files.sortedEntries f
    let special ← (if f.isDirectory then dotNames ts else []).flatMapM fun name => do
      files.follow directoriesOnly steps (← files.lookAt (f.path.under name))
    let found ← (es.filter fun e => Pattern.accepts ts e.name.toList).flatMapM fun e =>
      files.follow directoriesOnly steps (.ofEntry f.path e)
    return special ++ found
  | [.anyDepth], f =>
    files.searchBelow (fun _ child => return if child.isDirectory then [child.path] else [])
      depthLimit f
  | .anyDepth :: step :: steps, f =>
    files.searchBelow (fun name child =>
      if step.accepts name then files.follow directoriesOnly steps child else return [])
      depthLimit f

def search (files : Files m) (pattern : Pattern) : ExceptT SearchError m (List FilePath) := do
  files.follow pattern.directoriesOnly pattern.steps (← files.lookAt pattern.start)

end Files

end Conform
