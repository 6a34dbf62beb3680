import Conform.Fields
import Conform.Json.Basic
import Conform.Literal

/-! Values at run time: their type tags, strict equality with literals, property reads and
their view as data. -/

namespace Conform

/-- What the type test of a script reports. -/
inductive TypeTag where
  | number
  | string
  | boolean
  | undefined
  | bigint
  | object
  deriving DecidableEq, Repr

def TypeTag.text : TypeTag → String
  | .number => "number"
  | .string => "string"
  | .boolean => "boolean"
  | .undefined => "undefined"
  | .bigint => "bigint"
  | .object => "object"

inductive Value where
  | undefined
  | null
  | bool (b : Bool)
  | number (d : Double)
  | bigint (i : Int)
  | string (s : String)
  | array (items : List Value)
  | object (fields : List (String × Value))
  deriving Inhabited

namespace Value

/-- Null, arrays and objects all report `object`. -/
def tag : Value → TypeTag
  | .undefined => .undefined
  | .bool _ => .boolean
  | .number _ => .number
  | .bigint _ => .bigint
  | .string _ => .string
  | .null | .array _ | .object _ => .object

def isNull : Value → Bool
  | .null => true
  | _ => false

def isArray : Value → Bool
  | .array _ => true
  | _ => false

/-- Equality of the same type and value. -/
def strictEq : Value → Literal → Bool
  | .number a, .number b => a.equal b
  | .string a, .string b => a == b
  | .bool a, .boolean b => a == b
  | .bigint a, .bigint b => a == b
  | _, _ => false

/-- A property of an object; whatever has no such property reads as undefined. -/
def get (v : Value) (field : String) : Value :=
  match v with
  | .object fields => (Fields.get? field fields).getD .undefined
  | _ => .undefined

/-- An item of an array, undefined if there is none. -/
def item (v : Value) (index : Nat) : Value :=
  match v with
  | .array items => items[index]?.getD .undefined
  | _ => .undefined

def length : Value → Nat
  | .array items => items.length
  | _ => 0

mutual

def depth : Value → Nat
  | .array items => itemsDepth items + 1
  | .object fields => fieldsDepth fields + 1
  | _ => 0

def itemsDepth : List Value → Nat
  | [] => 0
  | v :: vs => max v.depth (itemsDepth vs)

def fieldsDepth : List (String × Value) → Nat
  | [] => 0
  | (_, v) :: fs => max v.depth (fieldsDepth fs)

end

def isUndefined : Value → Bool
  | .undefined => true
  | _ => false

def numberJson (d : Double) : Json :=
  match d.toSafeInt? with
  | some i => .integer i
  | none => match d with
    | .finite _ _ => .real d
    | _ => .null

mutual

/-- The view as data: fields that are undefined are left out and undefined items are null,
safe whole numbers are integers, and big integers are strings. -/
def toJson : Value → Json
  | .undefined | .null => .null
  | .bool b => .bool b
  | .number d => numberJson d
  | .bigint i => .string (BigInt.decimal i)
  | .string s => .string s
  | .array items => .array (itemsJson items)
  | .object fields => .object (fieldsJson fields)

def itemsJson : List Value → List Json
  | [] => []
  | v :: vs => v.toJson :: itemsJson vs

def fieldsJson : List (String × Value) → List (String × Json)
  | [] => []
  | (k, v) :: fs => if v.isUndefined then fieldsJson fs else (k, v.toJson) :: fieldsJson fs

end

mutual

def ofJson : Json → Value
  | .null => .null
  | .bool b => .bool b
  | .integer i => .number (.ofInt i)
  | .real d => .number d
  | .string s => .string s
  | .array items => .array (ofItems items)
  | .object fields => .object (ofFields fields)

def ofItems : List Json → List Value
  | [] => []
  | j :: js => ofJson j :: ofItems js

def ofFields : List (String × Json) → List (String × Value)
  | [] => []
  | (k, j) :: fs => (k, ofJson j) :: ofFields fs

end

def display : Value → String
  | .undefined => "undefined"
  | .null => "null"
  | .bool b => if b then "true" else "false"
  | .number d => Numeral.script.text d
  | .bigint i => BigInt.text i
  | .string s => s
  | v => v.toJson.text

end Value

end Conform
