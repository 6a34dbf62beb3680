import Conform.Command.Basic

/-! Reading the arguments of the command line. They are taken from left to right; what asks
for help or the version ends the reading with all faults before it reported first. -/

namespace Conform.Command

-- Sums start at the zero of the core library, whatever else is imported.
attribute [local instance (high)] Zero.ofOfNat0

inductive Switch where
  | verbose
  | version
  | help
  | config
  | out
  | lf
  | noOp
  | validator
  | input
  | ndjson
  | pointer
  deriving DecidableEq, Repr

inductive Takes where
  | nothing
  | one
  /-- A value that is not empty. -/
  | path
  | several
  deriving DecidableEq, Repr

namespace Switch

def long : Switch → String
  | .verbose => "verbose"
  | .version => "version"
  | .help => "help"
  | .config => "config"
  | .out => "out"
  | .lf => "lf"
  | .noOp => "no-op"
  | .validator => "validator"
  | .input => "input"
  | .ndjson => "ndjson"
  | .pointer => "json-pointer"

def short? : Switch → Option Char
  | .verbose => some 'v'
  | .version => some 'V'
  | .help => some 'h'
  | .config => some 'c'
  | .out => some 'o'
  | .input => some 'i'
  | _ => none

def takes : Switch → Takes
  | .config | .out => .path
  | .validator | .pointer => .one
  | .input => .several
  | _ => .nothing

def mayRepeat : Switch → Bool
  | .verbose | .input => true
  | _ => false

end Switch

inductive UsageError where
  | unexpected (argument : String)
  | noValue (switch : Switch)
  | emptyValue (switch : Switch)
  | extraValue (switch : Switch)
  | repeated (switch : Switch)
  | required (switch : Switch)
  | noCommand
  deriving DecidableEq, Repr

def UsageError.message : UsageError → String
  | .unexpected argument => "unexpected argument '" ++ argument ++ "'"
  | .noValue switch => "--" ++ switch.long ++ " needs a value"
  | .emptyValue switch => "--" ++ switch.long ++ " needs a value that is not empty"
  | .extraValue switch => "--" ++ switch.long ++ " takes no value"
  | .repeated switch => "--" ++ switch.long ++ " is given more than once"
  | .required switch => "--" ++ switch.long ++ " is required"
  | .noCommand => "a command is required: generate or check"

/-- What ends the reading of arguments early. -/
inductive Stop where
  | usage (e : UsageError)
  | version
  | help
  deriving DecidableEq, Repr

abbrev Given := List (Switch × List String)

namespace Given

def has (g : Given) (s : Switch) : Bool := g.any (·.1 = s)

def count (g : Given) (s : Switch) : Nat := (g.filter (·.1 = s)).length

def values (g : Given) (s : Switch) : List String := (g.filter (·.1 = s)).flatMap (·.2)

def value? (g : Given) (s : Switch) : Option String := (g.values s).head?

def required (g : Given) (s : Switch) : Except Stop String :=
  match g.value? s with
  | some v => .ok v
  | none => .error (.usage (.required s))

def add (g : Given) (s : Switch) (values : List String) : Except Stop Given :=
  if s.takes != .nothing && values.isEmpty then .error (.usage (.noValue s))
  else if s = .help then .error .help
  else if s = .version then .error .version
  else if g.has s && !s.mayRepeat then .error (.usage (.repeated s))
  else if s.takes = .path && values.contains "" then .error (.usage (.emptyValue s))
  else .ok (g ++ [(s, values)])

end Given

/-- What stands alone behind a switch is its value unless it opens with a dash itself. -/
def isValue (argument : String) : Bool :=
  argument = "-" || argument.toList.head? != some '-'

def taken (s : Switch) (rest : List String) : Nat :=
  match s.takes with
  | .nothing => 0
  | .several => (rest.takeWhile isValue).length
  | _ => ((rest.take 1).takeWhile isValue).length

/-- Letters behind a dash. Behind one that takes a value all else is the value, which an equals
sign may set off. -/
def ofLetters (known : List Switch) (argument : String) :
    List Char → Except Stop (List (Switch × Option String))
  | [] => .ok []
  | c :: cs =>
    match known.find? (·.short? = some c) with
    | none => .error (.usage (.unexpected argument))
    | some s =>
      if s.takes = .nothing then
        if s = .help || s = .version then .ok [(s, none)]
        else (ofLetters known argument cs).map ((s, none) :: ·)
      else match cs with
        | [] => .ok [(s, none)]
        | '=' :: value | value => .ok [(s, some (String.ofList value))]

/-- A name behind two dashes, with a value if an equals sign sets one off. -/
def ofName (known : List Switch) (argument : String) (cs : List Char) :
    Except Stop (List (Switch × Option String)) :=
  let name := String.ofList (cs.takeWhile (· != '='))
  let value := match cs.dropWhile (· != '=') with
    | [] => none
    | _ :: value => some (String.ofList value)
  match known.find? (·.long = name) with
  | none => .error (.usage (.unexpected argument))
  | some s =>
    if s.takes = .nothing && value.isSome then .error (.usage (.extraValue s))
    else .ok [(s, value)]

/-- The switches in an argument, each with its value if that stands in the argument too. Only
the last one can be without a value that it takes. -/
def switches? (known : List Switch) (argument : String) :
    Option (Except Stop (List (Switch × Option String))) :=
  match argument.toList with
  | '-' :: '-' :: cs => some (ofName known argument cs)
  | '-' :: c :: cs => some (ofLetters known argument (c :: cs))
  | _ => none

/-- Reads switches up to the first argument that is neither one nor a value, and gives that
one and the rest. Nothing may follow two dashes. -/
def readSwitches (known : List Switch) (g : Given) :
    List String → Except Stop (Given × Option (String × List String))
  | [] => .ok (g, none)
  | ["--"] => .ok (g, none)
  | "--" :: extra :: _ => .error (.usage (.unexpected extra))
  | argument :: rest =>
    match switches? known argument with
    | none => .ok (g, some (argument, rest))
    | some found => do
      let found ← found
      let width := fun (s : Switch) (value : Option String) =>
        if value.isSome then 0 else taken s rest
      let g ← found.foldlM (fun g (s, value) =>
        g.add s (value.toList ++ rest.take (width s value))) g
      readSwitches known g (rest.drop (found.map fun (s, value) => width s value).sum)
termination_by args => args.length
decreasing_by simp only [List.length_cons, List.length_drop]; omega

/-! ### Commands -/

def commandNames : List String := ["generate", "check", "help"]

def readAll (known : List Switch) (args : List String) : Except Stop Given := do
  match ← readSwitches known [] args with
  | (g, none) => return g
  | (_, some (extra, _)) => throw (.usage (.unexpected extra))

def readGenerate (args : List String) : Except Stop (Given × Command) := do
  let g ← readAll [.config, .out, .lf, .noOp, .verbose, .help] args
  return (g, .generate {
    config := ← g.required .config
    out := g.value? .out
    lineEnding := if g.has .lf then .lf else .crlf
    noOp := g.has .noOp })

def readCheck (args : List String) : Except Stop (Given × Command) := do
  let g ← readAll [.config, .validator, .ndjson, .pointer, .input, .verbose, .help] args
  let inputs := g.values .input
  return (g, .check {
    config := ← g.required .config
    validator := ← g.required .validator
    byLine := g.has .ndjson
    pointer := g.value? .pointer
    inputs := ← if inputs.isEmpty then throw (.usage (.required .input)) else pure inputs })

/-- Verbosity stops growing at 255. -/
def Given.verbosity (g : Given) : Nat := min 255 (g.count .verbose)

/-- Help is there for a command by its name, and no command has commands of its own. -/
def readHelp : List String → Stop
  | [] => .help
  | name :: rest =>
    if !commandNames.contains name then .usage (.unexpected name)
    else match rest with
      | [] => .help
      | extra :: _ => .usage (.unexpected extra)

/-- Reads arguments. The verbosity that a command is given counts before the one in front. -/
def readArguments (args : List String) : Except Stop Invocation := do
  let (front, rest) ← readSwitches [.verbose, .version, .help] [] args
  let finish := fun (r : Given × Command) =>
    (⟨if r.1.has .verbose then r.1.verbosity else front.verbosity, r.2⟩ : Invocation)
  match rest with
  | none => throw (.usage .noCommand)
  | some ("generate", rest) => return finish (← readGenerate rest)
  | some ("check", rest) => return finish (← readCheck rest)
  | some ("help", rest) => throw (readHelp rest)
  | some (other, _) => throw (.usage (.unexpected other))

/-! ### Texts -/

def versionText : String := "shape-guard 0.1.0\n"

def helpText : String :=
  "compile a schema document into validators, or run them over JSON inputs\n\n" ++
  "shape-guard generate --config FILE [--out FILE] [--lf] [--no-op]\n" ++
  "shape-guard check --config FILE --validator NAME --input FILE...\n" ++
  "    [--ndjson] [--json-pointer POINTER]\n"

end Conform.Command
