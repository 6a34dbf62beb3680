import Conform.Literal

/-! Type expressions of schema documents. -/

namespace Conform

inductive Keyword where
  | number
  | string
  | boolean
  | bigint
  | null
  | undefined
  | object
  | any
  | symbol
  | never
  | void
  deriving DecidableEq, Repr

namespace Keyword

def all : List Keyword :=
  [.number, .string, .boolean, .bigint, .null, .undefined, .object, .any, .symbol, .never, .void]

def text : Keyword → String
  | .number => "number"
  | .string => "string"
  | .boolean => "boolean"
  | .bigint => "bigint"
  | .null => "null"
  | .undefined => "undefined"
  | .object => "object"
  | .any => "any"
  | .symbol => "symbol"
  | .never => "never"
  | .void => "void"

def ofName? (name : String) : Option Keyword := all.find? (·.text == name)

theorem ofName?_text (k : Keyword) : ofName? k.text = some k := by cases k <;> decide

end Keyword

inductive TypeExpr where
  /-- A keyword or a declared name. -/
  | name (n : String)
  | literal (value : Literal)
  /-- A big integer as it was written. -/
  | bigint (text : String)
  | array (element : TypeExpr)
  | union (members : List TypeExpr)
  | record (fields : List (String × TypeExpr))

/-- Whether a declaration with this body is another name for a declared type. -/
def TypeExpr.isAlias : TypeExpr → Bool
  | .name n => (Keyword.ofName? n).isNone
  | _ => false

end Conform
