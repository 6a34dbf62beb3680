import Conform.Oracle
import Conform.Program.Basic

/-! Models: types as a graph of nodes, one node for each type that was resolved. -/

namespace Conform

/-- The number of a node. -/
abbrev NodeId := Nat

inductive NodeKind where
  | any
  | number
  | string
  | boolean
  | null
  | undefined
  | object
  | bigint
  | literal (value : Literal)
  /-- The element is there once it has been resolved. -/
  | array (element : Option NodeId)
  | union (members : List NodeId)
  | record (id : RecordId) (members : List (String × NodeId))
  | conversion (id : ConversionId)
  deriving DecidableEq, Repr

structure Node where
  name : String
  kind : NodeKind
  deriving DecidableEq, Repr

structure Model where
  nodes : Array Node
  recordCount : Nat

inductive CompileError where
  | unsupported (typeName reason : String)
  /-- Two conversions in one union. -/
  | inUnion (name : String)
  /-- Two conversions of one type. -/
  | sameTarget (typeName : String) (first second : ConversionId)
  deriving DecidableEq, Repr

namespace CompileError

def message : CompileError → String
  | .unsupported name reason => "unsupported schema type `" ++ name ++ "`: " ++ reason
  | .inUnion name => "cannot combine multiple conversions in one union: `" ++ name ++ "`"
  | .sameTarget name first second =>
    "conversion #" ++ toString second ++ " targets `" ++ name ++
      "`, already converted by conversion #" ++ toString first

def unclassified (name : String) : CompileError := .unsupported name "no supported classification"

def noLiteral (name : String) : CompileError := .unsupported name "literal type without a value"

def noElement (name : String) : CompileError :=
  .unsupported name "array type without an element type"

def circularUnion (name : String) : CompileError :=
  .unsupported name "union type circularly references itself"

/-- The answers of an oracle led to a type that it does not list. -/
def unlisted (name : String) : CompileError :=
  .unsupported name "type that its oracle does not list"

def endless (name : String) : CompileError :=
  .unsupported name "recursive type without a record boundary"

end CompileError

end Conform
