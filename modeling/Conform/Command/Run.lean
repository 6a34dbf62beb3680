import Conform.Command.Arguments
import Conform.Command.Shown
import Conform.Files.Search
import Conform.Json.Pointer
import Conform.Json.Reader
import Conform.Program.Run
import Conform.Program.TypeScript
import Conform.Schema.Decode

/-! Running commands over whatever gives access to files. -/

namespace Conform.Command

variable {m : Type → Type} [Monad m]

def Failure.ofFile (context : String) (e : FileError) : Failure := ⟨context, [e.message]⟩

def load (files : Files m) (config : FilePath) : ExceptT Failure m (Document × Program) := do
  let context := "failed to load schema document " ++ config
  match ← files.read config with
  | .error e => throw ⟨context, ["io error: " ++ e.message, e.message]⟩
  | .ok text =>
    match Document.ofText text with
    | .error e => throw ⟨context, [e.message]⟩
    | .ok doc =>
      match doc.compile with
      | .error e => throw ⟨e.message, []⟩
      | .ok p => return (doc, p)

/-! ### Generating -/

/-- A file that is not named goes where the document says, as seen from the document. -/
def target (s : GenerateSettings) (doc : Document) : FilePath :=
  s.out.getD (FilePath.under (s.config.parent?.getD "") doc.fileName)

def summary (out : FilePath) (p : Program) : String :=
  "wrote " ++ out ++ " (" ++ toString p.validators.length ++ " validators, " ++
    toString p.recordChecks.length ++ " record checks, " ++ toString p.routines.length ++
    " conversions)\n"

def save (files : Files m) (out : FilePath) (text : String) : ExceptT Failure m Unit := do
  if let some parent := out.parent? then
    unless parent = "" do
      if let .error e ← files.makePath parent then
        throw (.ofFile ("failed to create " ++ parent) e)
  if let .error e ← files.write out text then
    throw (.ofFile ("failed to write " ++ out) e)

def runGenerate (files : Files m) (s : GenerateSettings) : ExceptT Failure m Outcome := do
  let (doc, p) ← load files s.config
  let text := TypeScript.source s.lineEnding (TypeScript.items doc.imports p)
  let out := target s doc
  if out = "-" then return ⟨0, text, ""⟩
  save files out text
  return ⟨0, "", summary out p⟩

/-! ### Checking -/

/-- The paths that an input stands for. A pattern stands for one at least. -/
def expand (files : Files m) (input : String) : ExceptT Failure m (List FilePath) := do
  unless input.toList.any Pattern.isWildcard do return [input]
  match Pattern.ofText input with
  | .error e => throw ⟨"invalid glob pattern: " ++ input, [e.message]⟩
  | .ok pattern =>
    match ← (files.search pattern).run with
    | .error e => throw ⟨e.message, []⟩
    | .ok [] => throw ⟨"glob pattern matched no files: " ++ input, []⟩
    | .ok found => return found

def documentTexts (byLine : Bool) (text : String) : List String :=
  if byLine then ((Text.lines text.toList).map String.ofList).filter (!Text.isAllBlank ·)
  else [text]

def readDocument (p : FilePath) (text : String) : Except Failure Json :=
  (Json.ofText text).mapError fun stop =>
    ⟨"failed to parse JSON source file " ++ p, [stop.message text.toList]⟩

def select (p : FilePath) (pointer : Option String) (j : Json) : Except Failure Json :=
  match pointer with
  | none => .ok j
  | some pointer =>
    match j.at? pointer with
    | some j => .ok j
    | none => .error ⟨"JSON pointer " ++ pointer ++ " not found in " ++ p, []⟩

/-- All documents in the text of a file. None is looked at further before all are read. -/
def documents (s : CheckSettings) (p : FilePath) (text : String) : Except Failure (List Json) := do
  (← (documentTexts s.byLine text).mapM (readDocument p)).mapM (select p s.pointer)

/-- Runs the validator on documents up to the first that it refuses. -/
def checkDocuments (program : Program) (ts : Transforms) (validator : String) (js : List Json) :
    Except Failure Unit :=
  js.zipIdx.forM fun (j, n) =>
    match program.validate ts validator (.ofJson j) with
    | .ok _ => .ok ()
    | .error e => .error ⟨"document " ++ toString n, [e.message]⟩

def checkFile (files : Files m) (s : CheckSettings) (program : Program) (ts : Transforms)
    (p : FilePath) : m (Except Failure Unit) := do
  match ← files.read p with
  | .error e => return .error (.ofFile ("failed to read source file " ++ p) e)
  | .ok text => return do checkDocuments program ts s.validator (← documents s p text)

def checkFiles (files : Files m) (s : CheckSettings) (program : Program) (ts : Transforms)
    (paths : List FilePath) : m (List (FilePath × Except Failure Unit)) :=
  paths.mapM fun p => return (p, ← checkFile files s program ts p)

def verdict (p : FilePath) : Except Failure Unit → String
  | .ok () => "ok " ++ p ++ "\n"
  | .error f => "failed " ++ p ++ ": " ++ f.chain ++ "\n"

def runCheck (files : Files m) (s : CheckSettings) : ExceptT Failure m Outcome := do
  let (doc, program) ← load files s.config
  if (program.validator? s.validator).isNone then
    throw ⟨"no validator named `" ++ s.validator ++ "` in " ++ s.config, []⟩
  let paths ← s.inputs.flatMapM (expand files)
  let results ← ExceptT.lift (checkFiles files s program doc.transforms paths)
  let failed := results.any fun r => !r.2.isOk
  return ⟨if failed then 1 else 0, String.join (results.map fun r => verdict r.1 r.2), ""⟩

/-! ### Both -/

def runInvocation (files : Files m) (i : Invocation) : ExceptT Failure m Outcome :=
  match i.command with
  | .generate s =>
    if s.noOp then return ⟨0, "", s.shown i.verbosity⟩ else runGenerate files s
  | .check s => runCheck files s

def run (files : Files m) (args : List String) : m Outcome := do
  match readArguments args with
  | .error .version => return ⟨0, versionText, ""⟩
  | .error .help => return ⟨0, helpText, ""⟩
  | .error (.usage e) => return ⟨2, "", "error: " ++ e.message ++ "\n"⟩
  | .ok i =>
    match ← (runInvocation files i).run with
    | .ok o => return o
    | .error f => return ⟨1, "", f.report⟩

end Conform.Command
