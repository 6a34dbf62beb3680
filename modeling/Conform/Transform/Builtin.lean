import Conform.Program.Transforms
import Conform.Transform.DateText

/-! Conversions that are built in. Each has a script for programs that are written out, and a
transform for programs that are run. -/

namespace Conform

inductive Builtin where
  /-- Texts of dates become timestamps. -/
  | isoDate
  /-- Texts that start with a decimal integer become numbers. -/
  | intString
  deriving DecidableEq, Repr

namespace Builtin

def all : List Builtin := [.isoDate, .intString]

def name : Builtin → String
  | .isoDate => "iso-date"
  | .intString => "int-string"

def ofName? (s : String) : Option Builtin := all.find? (·.name == s)

/-- The body of the conversion routine. -/
def source : Builtin → String
  | .isoDate => "\n".intercalate [
      "if (value instanceof Date)",
      "    return value;",
      "const dt = typeof value === \"string\" ? Date.parse(value) : NaN;",
      "if (isNaN(dt))",
      "    throw new TypeError(\"Unable to convert to date. value: \" + value);",
      "return new Date(dt);"]
  | .intString => "\n".intercalate [
      "if (typeof value === \"number\")",
      "    return value;",
      "const i = typeof value === \"string\" ? parseInt(value, 10) : NaN;",
      "if (isNaN(i))",
      "    throw new TypeError(\"Unable to convert to number. value: \" + value);",
      "return i;"]

def dateRefusal (shown : String) : String := "Unable to convert to date. value: " ++ shown

def numberRefusal (shown : String) : String := "Unable to convert to number. value: " ++ shown

def isoDateOf : Transform
  | .string s =>
    let cs := Text.trim s.toList
    match DateText.moment? cs with
    | some m => .ok (.string m.text)
    | none => .error (dateRefusal (String.ofList cs))
  | v => .error (dateRefusal v.display)

/-- The number that a text starts with: blanks, a sign and digits. Long runs of digits are
rounded. -/
def leadingInteger? (cs : List Char) : Option Double :=
  let (negative, cs) := match Text.trimStart cs with
    | '-' :: cs => (true, cs)
    | '+' :: cs => (false, cs)
    | cs => (false, cs)
  let ds := cs.takeWhile isDigit
  if ds.isEmpty then none else some (Double.ofDecimal negative (digitsValue ds) 0)

def intStringOf : Transform
  | .number d => .ok (.number d)
  | .string s =>
    match leadingInteger? s.toList with
    | some d => .ok (.number d)
    | none => .error (numberRefusal s)
  | v => .error (numberRefusal v.display)

def transform : Builtin → Transform
  | .isoDate => isoDateOf
  | .intString => intStringOf

end Builtin

end Conform
