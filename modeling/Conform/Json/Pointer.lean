import Conform.Fields
import Conform.Json.Basic
import Conform.Number.Decimal
import Conform.Text.Split

/-! Pointers into data: a slash before each key or list position on the way down. The empty
pointer is the data itself. -/

namespace Conform.Json

/-- `~1` stands for a slash and `~0` for a tilde. -/
def unescapedStep : List Char → List Char
  | '~' :: '1' :: cs => '/' :: unescapedStep cs
  | '~' :: '0' :: cs => '~' :: unescapedStep cs
  | c :: cs => c :: unescapedStep cs
  | [] => []

def position? (step : List Char) : Option Nat :=
  match step with
  | [] => none
  | '0' :: _ :: _ => none
  | ds => if ds.all isDigit then some (digitsValue ds) else none

def child? (step : List Char) : Json → Option Json
  | .object fs => Fields.get? (String.ofList step) fs
  | .array js => (position? step).bind (js[·]?)
  | _ => none

def at? (pointer : String) (j : Json) : Option Json :=
  match Text.split '/' pointer.toList with
  | [] :: steps => (steps.map unescapedStep).foldlM (fun j step => j.child? step) j
  | _ => none

end Conform.Json
