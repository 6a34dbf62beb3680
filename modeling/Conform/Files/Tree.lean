import Conform.Files.Basic

/-! A tree of files held as a value, with a current directory in it. -/

namespace Conform

abbrev Location := List String

inductive FileEntry where
  | directory
  | file (text : String)
  deriving DecidableEq, Repr

structure FileTree where
  entries : List (Location × FileEntry)
  current : Location
  deriving DecidableEq, Repr

namespace FileTree

def get? (t : FileTree) (l : Location) : Option FileEntry :=
  if l = [] then some .directory else (t.entries.find? (·.1 = l)).map (·.2)

def put (t : FileTree) (l : Location) (e : FileEntry) : FileTree :=
  if t.entries.any (·.1 = l) then
    { t with entries := t.entries.map fun x => if x.1 = l then (l, e) else x }
  else { t with entries := t.entries ++ [(l, e)] }

/-- A longer name cannot be looked up. -/
def nameLimit : Nat := 255

def pathLimit : Nat := 4096

structure Spot where
  location : Location
  content? : Option FileEntry
  deriving DecidableEq, Repr

def spot (t : FileTree) (l : Location) : Spot := ⟨l, t.get? l⟩

/-- One name down or up a path. Only directories have something behind them. -/
def enter (t : FileTree) (s : Spot) (name : List Char) : Except FileError Spot :=
  match s.content? with
  | none => .error .missing
  | some (.file _) => .error .notDirectory
  | some .directory =>
    if FilePath.stays name then .ok s
    else if name = ['.', '.'] then .ok (t.spot s.location.dropLast)
    else if nameLimit < (String.ofList name).utf8ByteSize then .error .nameTooLong
    else .ok (t.spot (s.location ++ [String.ofList name]))

/-- The spot that names lead to from where a path begins. The path itself has to be one that can
be looked up. -/
def follow (t : FileTree) (p : FilePath) (names : List (List Char)) : Except FileError Spot :=
  if p = "" then .error .missing
  else if p.toList.contains '\x00' then .error .zeroInName
  else if pathLimit ≤ p.utf8ByteSize then .error .nameTooLong
  else names.foldlM t.enter (t.spot (if p.isAbsolute then [] else t.current))

def locate (t : FileTree) (p : FilePath) : Except FileError Spot := t.follow p p.names

def find? (t : FileTree) (p : FilePath) : Except FileError (Option FileEntry) :=
  (t.locate p).map (·.content?)

def read (t : FileTree) (p : FilePath) : Except FileError String := do
  match ← t.find? p with
  | none => throw .missing
  | some .directory => throw .isDirectory
  | some (.file text) => return text

def withoutSlashes (p : FilePath) : FilePath :=
  String.ofList (p.toList.reverse.dropWhile (· == '/')).reverse

/-- A path that ends in a slash is one of a directory, whether there is one or not. Only the
directory above it is looked up. -/
def write (t : FileTree) (p : FilePath) (text : String) : Except FileError FileTree := do
  if p.endsInSlash then
    let _ ← t.follow p ((withoutSlashes p).names.dropLast ++ [['.']])
    throw .isDirectory
  let s ← t.locate p
  if s.content? = some .directory then throw .isDirectory
  return t.put s.location (.file text)

def makeDirectory (t : FileTree) (p : FilePath) : Except FileError FileTree := do
  let s ← t.locate p
  if s.content?.isSome then throw .alreadyThere
  return t.put s.location .directory

def entriesAt (t : FileTree) (l : Location) : List DirectoryEntry :=
  t.entries.filterMap fun x =>
    if x.1 ≠ [] ∧ x.1.dropLast = l then x.1.getLast?.map (⟨·, x.2 = .directory⟩) else none

def entriesIn (t : FileTree) (p : FilePath) : Except FileError (List DirectoryEntry) := do
  let s ← t.locate p
  match s.content? with
  | none => throw .missing
  | some (.file _) => throw .notDirectory
  | some .directory => return t.entriesAt s.location

def isPresent (t : FileTree) (p : FilePath) : Bool :=
  match t.find? p with
  | .ok (some _) => true
  | _ => false

def isDirectory (t : FileTree) (p : FilePath) : Bool :=
  match t.find? p with
  | .ok (some .directory) => true
  | _ => false

/-- A file below the current directory, with the directories that it is in. -/
def add (t : FileTree) (p : FilePath) (text : String) : FileTree :=
  let l := t.current ++ (p.names.filter (!FilePath.stays ·)).map String.ofList
  let above := (List.range l.length).tail.map l.take
  let t := above.foldl (fun t l => if (t.get? l).isSome then t else t.put l .directory) t
  t.put l (.file text)

/-- Files by their paths from the current directory, which is `current`. -/
def ofFiles (current : String) (files : List (FilePath × String)) : FileTree :=
  files.foldl (fun t f => t.add f.1 f.2) ⟨[([current], .directory)], [current]⟩

/-- Files below the current directory that are new or have another text than before. -/
def changes (before after : FileTree) : List (FilePath × String) :=
  after.entries.filterMap fun x =>
    match x.2 with
    | .directory => none
    | .file text =>
      if before.get? x.1 = some x.2 || !after.current.isPrefixOf x.1 then none
      else some ("/".intercalate (x.1.drop after.current.length), text)

/-- What a change does to the tree, which is left alone if it fails. -/
def update (f : FileTree → Except FileError FileTree) : StateM FileTree (Except FileError Unit) :=
  fun t => match f t with
    | .ok t => (.ok (), t)
    | .error e => (.error e, t)

def files : Files (StateM FileTree) where
  read p := fun t => (t.read p, t)
  write p text := update (·.write p text)
  makeDirectory p := update (·.makeDirectory p)
  entries p := fun t => (t.entriesIn p, t)
  isPresent p := fun t => (t.isPresent p, t)
  isDirectory p := fun t => (t.isDirectory p, t)

end FileTree

end Conform
