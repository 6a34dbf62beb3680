import Conform.Command.Run

/-! The command line program. -/

namespace Conform

/-- Numbers of errors may come negated. -/
def FileError.ofNumber (number : UInt32) (text : String) : FileError :=
  match min number.toNat (-number).toNat with
  | 2 => .missing
  | 17 => .alreadyThere
  | 20 => .notDirectory
  | 21 => .isDirectory
  | 36 => .nameTooLong
  | n => .system n text

def FileError.ofSystem : IO.Error → FileError
  | .noFileOrDirectory _ n t | .interrupted _ n t => .ofNumber n t
  | .alreadyExists _ n t | .invalidArgument _ n t | .permissionDenied _ n t
  | .resourceExhausted _ n t | .inappropriateType _ n t | .noSuchThing _ n t => .ofNumber n t
  | .otherError n t | .resourceBusy n t | .resourceVanished n t | .unsupportedOperation n t
  | .hardwareFault n t | .unsatisfiedConstraints n t | .illegalOperation n t
  | .protocolError n t | .timeExpired n t => .ofNumber n t
  | .unexpectedEof | .userError _ => .notText

def attempt {α : Type} (act : IO α) : IO (Except FileError α) := do
  match ← act.toBaseIO with
  | .ok a => return .ok a
  | .error e => return .error (.ofSystem e)

/-- A path in the form that the system takes. -/
def systemPath (p : FilePath) := (IO.FS.DirEntry.mk p "").root

def systemFiles : Files IO where
  read p := do
    match ← attempt (IO.FS.readBinFile p) with
    | .error e => return .error e
    | .ok bytes => return match String.fromUTF8? bytes with
      | some text => .ok text
      | none => .error .notText
  write p text :=
    if p.toList.contains '\x00' then return .error .zeroInName
    else attempt (IO.FS.writeFile p text)
  makeDirectory p :=
    if p.toList.contains '\x00' then return .error .zeroInName
    else attempt (IO.FS.createDir p)
  entries p := attempt do
    let names ← (systemPath p).readDir
    let directory ← IO.FS.realPath p
    return (← names.mapM fun e =>
      return ⟨e.fileName, ← (directory / e.fileName).isDir⟩).toList
  isPresent p := do return (← (systemPath p).symlinkMetadata.toBaseIO).toBool
  isDirectory p := (systemPath p).isDir

end Conform

def main (args : List String) : IO UInt32 := do
  let o ← Conform.Command.run Conform.systemFiles args
  IO.print o.output
  IO.eprint o.diagnostics
  return o.status.toUInt32
