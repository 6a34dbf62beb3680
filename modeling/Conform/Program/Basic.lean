import Conform.Program.Path
import Conform.Program.Place

/-! Validator programs. A validator checks the value it is given, a record check does so for
one record type on behalf of all its callers, and a conversion routine is text of its own. -/

namespace Conform

abbrev RecordId := Nat

/-- The number of a conversion; the first has number 1. -/
abbrev ConversionId := Nat

inductive Test where
  | hasTag (place : Place) (tag : TypeTag)
  /-- Neither null nor a primitive. -/
  | isObject (place : Place)
  | isNull (place : Place)
  | equals (place : Place) (literal : Literal)
  | isArray (place : Place)
  deriving DecidableEq, Repr

/-- What happens to a value that passes none of the tests. -/
inductive Fallback where
  | convert (conversion : ConversionId) (target : Place)
  | fail (path : Path) (expected : List String)
  deriving DecidableEq, Repr

mutual

inductive Stmt where
  /-- The first branch whose test holds is taken. -/
  | check (branches : List Branch) (otherwise : Fallback)
  | convert (conversion : ConversionId) (target : Place)
  | forEach (array : Place) (depth : Nat) (body : List Stmt)
  | call (record : RecordId) (value : Place) (path : Path)

inductive Branch where
  | mk (label : String) (test : Test) (body : List Stmt)

end

namespace Branch

def label : Branch → String
  | .mk label _ _ => label

def test : Branch → Test
  | .mk _ test _ => test

def body : Branch → List Stmt
  | .mk _ _ body => body

end Branch

structure Validator where
  name : String
  returnType : String
  body : List Stmt

structure RecordCheck where
  record : RecordId
  body : List Stmt

structure Routine where
  conversion : ConversionId
  resultType : String
  body : String

structure Program where
  validators : List Validator
  /-- By ascending number. -/
  recordChecks : List RecordCheck
  /-- By ascending number. -/
  routines : List Routine

def checkName (record : RecordId) : String := "__check_" ++ toString record

def conversionName (conversion : ConversionId) : String := "__convert_" ++ toString conversion

namespace Program

def validator? (p : Program) (name : String) : Option Validator :=
  p.validators.find? (·.name == name)

/-- The last record check of a number counts. -/
def recordCheck? (p : Program) (record : RecordId) : Option RecordCheck :=
  (p.recordChecks.filter (·.record == record)).getLast?

end Program

end Conform
