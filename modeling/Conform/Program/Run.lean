import Conform.Program.Transforms

/-! Running a validator on a value. The first branch that holds is taken, the first failure
ends the run, and a conversion writes its result into the place that it read. -/

namespace Conform

inductive CheckError where
  /-- A value failed every branch. -/
  | mismatch (path : String) (expected : List String)
  /-- A transform refused its input, or there is none. -/
  | conversion (conversion : ConversionId) (message : String)
  | unknownValidator (name : String)
  | missingCheck (record : RecordId)
  | noSlot (path : String)
  /-- More record checks were under way at once than allowed. -/
  | tooDeep
  deriving DecidableEq, Repr

def CheckError.message : CheckError → String
  | .mismatch path expected => path ++ " is not " ++ " | ".intercalate expected ++ "."
  | .conversion n message => conversionName n ++ ": " ++ message
  | .unknownValidator name => "no validator named `" ++ name ++ "`"
  | .missingCheck record => "invalid program: no record check " ++ checkName record
  | .noSlot path => "invalid program: " ++ path ++ " has no slot to check"
  | .tooDeep => "record checks nest too deeply"

/-- The value of a routine while it runs, and its loop counters. -/
structure State where
  value : Value
  counters : Counters

/-- What a routine runs in: the transforms, the record checks that it can call, and the path
that it was given. -/
structure Env where
  transforms : Transforms
  check? : RecordId → Option (String → Value → Except CheckError Value)
  given : String

namespace State

def read (s : State) (p : Place) : Value := p.read s.counters s.value

def pathText (s : State) (env : Env) (p : Path) : String := p.eval env.given s.counters.get

def holds (s : State) : Test → Bool
  | .hasTag p tag => (s.read p).tag == tag
  | .isObject p => !(s.read p).isNull && (s.read p).tag == .object
  | .isNull p => (s.read p).isNull
  | .equals p literal => (s.read p).strictEq literal
  | .isArray p => (s.read p).isArray

def write (s : State) (p : Place) (w : Value) : State :=
  { s with value := Value.write w (p.steps s.counters) s.value }

def convert (s : State) (env : Env) (n : ConversionId) (target : Place) :
    Except CheckError State :=
  match env.transforms.get? n with
  | none => .error (.conversion n "no executable transform registered")
  | some t => match t (s.read target) with
    | .error message => .error (.conversion n message)
    | .ok w => .ok (s.write target w)

def fallback (s : State) (env : Env) : Fallback → Except CheckError State
  | .convert n target => s.convert env n target
  | .fail path expected => .error (.mismatch (s.pathText env path) expected)

/-- A record check runs on the slot of its place, which has to be there. -/
def call (s : State) (env : Env) (record : RecordId) (place : Place) (path : Path) :
    Except CheckError State :=
  match env.check? record with
  | none => .error (.missingCheck record)
  | some check =>
    let steps := place.steps s.counters
    match s.value.slot? steps with
    | none => .error (.noSlot (s.pathText env path))
    | some slot => do
      let w ← check (s.pathText env path) slot
      return { s with value := Value.write w steps s.value }

end State

mutual

def Stmt.run (env : Env) : Stmt → State → Except CheckError State
  | .check branches otherwise, s => runBranches env otherwise branches s
  | .convert n target, s => s.convert env n target
  | .forEach array depth body, s =>
    (List.range (s.read array).length).foldlM
      (fun s i => runAll env body { s with counters := s.counters.put depth i })
      { s with counters := s.counters.reach depth }
  | .call record place path, s => s.call env record place path

def runAll (env : Env) : List Stmt → State → Except CheckError State
  | [], s => .ok s
  | stmt :: stmts, s => do runAll env stmts (← stmt.run env s)

def runBranches (env : Env) (otherwise : Fallback) : List Branch → State → Except CheckError State
  | [], s => s.fallback env otherwise
  | .mk _ test body :: branches, s =>
    if s.holds test then runAll env body s else runBranches env otherwise branches s

end

namespace Program

/-- A record check with at most `depth` others under way inside it. -/
def checkRecord (p : Program) (ts : Transforms) :
    Nat → RecordId → Option (String → Value → Except CheckError Value)
  | 0, record => (p.recordCheck? record).map fun _ _ _ => .error .tooDeep
  | depth + 1, record => (p.recordCheck? record).map fun check given v => do
    let s ← runAll ⟨ts, p.checkRecord ts depth, given⟩ check.body ⟨v, []⟩
    return s.value

/-- Record checks beyond the depth of the value are allowed up to this number. Checks that
each go a level down never need any. -/
def spareDepth : Nat := 100000

/-- Runs a validator and gives the value back with its conversions made. -/
def validate (p : Program) (ts : Transforms) (name : String) (v : Value) :
    Except CheckError Value :=
  match p.validator? name with
  | none => .error (.unknownValidator name)
  | some validator => do
    let s ← runAll ⟨ts, p.checkRecord ts (v.depth + spareDepth), ""⟩ validator.body ⟨v, []⟩
    return s.value

end Program

end Conform
