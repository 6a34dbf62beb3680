import Conform.Files.Path
import Conform.Text.Lines

/-! What the command line asks for, and what comes of it. -/

namespace Conform

structure GenerateSettings where
  config : FilePath
  out : Option FilePath
  lineEnding : Text.LineEnding
  /-- Only show these settings. -/
  noOp : Bool
  deriving DecidableEq, Repr

structure CheckSettings where
  config : FilePath
  validator : String
  /-- Whether each line of an input is a document. -/
  byLine : Bool
  pointer : Option String
  /-- Paths or patterns. -/
  inputs : List String
  deriving DecidableEq, Repr

inductive Command where
  | generate (settings : GenerateSettings)
  | check (settings : CheckSettings)
  deriving DecidableEq, Repr

structure Invocation where
  verbosity : Nat
  command : Command
  deriving DecidableEq, Repr

namespace Command

/-- A failure in terms of the program, with what led to it from the outermost cause on. -/
structure Failure where
  message : String
  causes : List String
  deriving DecidableEq, Repr

namespace Failure

/-- Lines after the first are moved to the right as far as the first one is. -/
def hanging (label : String) (message : String) : String :=
  let space := "".pushn ' ' label.length
  label ++ ("\n" ++ space).intercalate
    ((Text.split '\n' message.toList).map String.ofList)

/-- Causes go by number if there are several. -/
def causeLines : List String → List String
  | [cause] => [hanging "    " cause]
  | causes => causes.zipIdx.map fun (cause, n) =>
    let number := toString n
    hanging ("".pushn ' ' (5 - number.length) ++ number ++ ": ") cause

def report (f : Failure) : String :=
  "Error: " ++ f.message ++
    (if f.causes.isEmpty then ""
      else "\n\nCaused by:" ++ String.join ((causeLines f.causes).map ("\n" ++ ·))) ++ "\n"

def chain (f : Failure) : String := ": ".intercalate (f.message :: f.causes)

end Failure

structure Outcome where
  status : Nat
  output : String
  diagnostics : String
  deriving DecidableEq, Repr

end Command

end Conform
