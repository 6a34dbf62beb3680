import Conform.Files.Path

/-! Access to files, as far as the program needs any. -/

namespace Conform

inductive FileError where
  | missing
  | alreadyThere
  | notDirectory
  | isDirectory
  | nameTooLong
  | zeroInName
  | notText
  /-- Any other that the system numbers. -/
  | system (number : Nat) (text : String)
  deriving DecidableEq, Repr

namespace FileError

def numbered (number : Nat) (text : String) : String :=
  text ++ " (os error " ++ toString number ++ ")"

def message : FileError → String
  | .missing => numbered 2 "No such file or directory"
  | .alreadyThere => numbered 17 "File exists"
  | .notDirectory => numbered 20 "Not a directory"
  | .isDirectory => numbered 21 "Is a directory"
  | .nameTooLong => numbered 36 "File name too long"
  | .zeroInName => "file name contained an unexpected NUL byte"
  | .notText => "stream did not contain valid UTF-8"
  | .system number text => numbered number text

end FileError

/-- A name in a directory, with what the directory knows of it. -/
structure DirectoryEntry where
  name : String
  isDirectory : Bool
  deriving DecidableEq, Repr

structure Files (m : Type → Type) where
  read : FilePath → m (Except FileError String)
  /-- Puts text into a file, which is made if there is none. -/
  write : FilePath → String → m (Except FileError Unit)
  makeDirectory : FilePath → m (Except FileError Unit)
  /-- What is in a directory, in any order. -/
  entries : FilePath → m (Except FileError (List DirectoryEntry))
  isPresent : FilePath → m Bool
  isDirectory : FilePath → m Bool

namespace Files

variable {m : Type → Type} [Monad m]

def ensureDirectory (files : Files m) (p : FilePath) : m (Except FileError Unit) := do
  match ← files.makeDirectory p with
  | .ok () => return .ok ()
  | .error e => return if ← files.isDirectory p then .ok () else .error e

/-- Makes a directory and those above it that are missing, which at most `depth` are. -/
def makeDirectories (files : Files m) : Nat → FilePath → m (Except FileError Unit)
  | 0, p => files.ensureDirectory p
  | depth + 1, p => do
    match ← files.ensureDirectory p, p.parent? with
    | .error .missing, some parent =>
      if parent = "" then files.ensureDirectory p
      else match ← files.makeDirectories depth parent with
        | .ok () => files.ensureDirectory p
        | .error e => return .error e
    | r, _ => return r

def makePath (files : Files m) (p : FilePath) : m (Except FileError Unit) :=
  files.makeDirectories p.names.length p

end Files

end Conform
