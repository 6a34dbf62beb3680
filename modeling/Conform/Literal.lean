import Conform.Number.Numeral
import Conform.Text.Blank

/-! Literal values of types, and big integers as text. -/

namespace Conform

namespace BigInt

def signed? : List Char → Option Int
  | '-' :: ds => if ds.isEmpty || !ds.all isDigit then none else some (-(digitsValue ds : Int))
  | ds => if ds.isEmpty || !ds.all isDigit then none else some (digitsValue ds : Int)

def dropSuffix (cs : List Char) : List Char :=
  if cs.getLast? = some 'n' then cs.dropLast else cs

/-- Reads an integer between blanks, with or without the suffix of big integers. -/
def parse? (s : String) : Option Int := signed? (dropSuffix (Text.trim s.toList))

def digits (i : Int) : String := String.ofList (decimalDigits i.natAbs)

def decimal (i : Int) : String :=
  String.ofList (Numeral.signed (i < 0) (decimalDigits i.natAbs))

def text (i : Int) : String := decimal i ++ "n"

end BigInt

inductive Literal where
  | number (d : Double)
  | string (s : String)
  | boolean (b : Bool)
  | bigint (i : Int)
  deriving DecidableEq, Repr

namespace Literal

/-- Whether two literals are one type. -/
def same : Literal → Literal → Bool
  | .number a, .number b => a.same b
  | .string a, .string b => a == b
  | .boolean a, .boolean b => a == b
  | .bigint a, .bigint b => a == b
  | _, _ => false

def sourceChar (c : Char) : List Char :=
  if c = '\\' then ['\\', '\\'] else if c = '\'' then ['\\', '\''] else [c]

/-- How a literal is named in messages: strings stand in single quotes. -/
def sourceForm : Literal → String
  | .number d => Numeral.script.text d
  | .string s => String.ofList ('\'' :: s.toList.flatMap sourceChar ++ ['\''])
  | .boolean b => if b then "true" else "false"
  | .bigint i => BigInt.text i

end Literal

end Conform
