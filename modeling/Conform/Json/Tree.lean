import Conform.Json.Basic
import Conform.Json.Fault
import Conform.Fields

/-! Data as far as a text can be read, with the offsets that messages about it name. At most
one place of a tree, its last, is one where reading stopped. -/

namespace Conform.Json

inductive Scalar where
  | null
  | bool (b : Bool)
  | integer (i : Int)
  | real (d : Double)
  | string (s : String)

def Scalar.toJson : Scalar → Json
  | .null => .null
  | .bool b => .bool b
  | .integer i => .integer i
  | .real d => .real d
  | .string s => .string s

/-- A key with the offset after it and the one that `close` of an item would be there. -/
structure Key where
  name : String
  stop : Nat
  close : Nat

mutual

inductive Tree where
  | scalar (value : Scalar) (start stop : Nat)
  | list (items : Items) (start : Nat)
  | object (entries : Entries) (start : Nat)
  /-- No value could be read from `start` on, where `first` stands. -/
  | stopped (first : Option Char) (start : Nat) (stop : Stop)

/-- Items of a list, each with the offset that is reached by leaving the list right after it:
blanks and a bracket or comma with its blanks behind. -/
inductive Items where
  | closed (offset : Nat)
  | stopped (stop : Stop)
  | cons (value : Tree) (close : Nat) (rest : Items)

/-- Fields of an object, likewise. -/
inductive Entries where
  | closed (offset : Nat)
  | stopped (stop : Stop)
  /-- The text stops between a key and its value. -/
  | noValue (key : Key) (stop : Stop)
  | cons (key : Key) (value : Tree) (close : Nat) (rest : Entries)

end

mutual

/-- The data of a tree that was read to its end. Of a repeated key the first place and the
last value count. -/
def Tree.toJson : Tree → Except Stop Json
  | .scalar value _ _ => .ok value.toJson
  | .list items _ => (items.toJsons).map .array
  | .object entries _ => (entries.toFields []).map .object
  | .stopped _ _ stop => .error stop

def Items.toJsons : Items → Except Stop (List Json)
  | .closed _ => .ok []
  | .stopped stop => .error stop
  | .cons value _ rest => do return (← value.toJson) :: (← rest.toJsons)

def Entries.toFields : Entries → List (String × Json) → Except Stop (List (String × Json))
  | .closed _, fs => .ok fs
  | .stopped stop, _ => .error stop
  | .noValue _ stop, _ => .error stop
  | .cons key value _ rest, fs => do rest.toFields (Fields.put key.name (← value.toJson) fs)

end

mutual

def toTree : Json → Tree
  | .null => .scalar .null 0 0
  | .bool b => .scalar (.bool b) 0 0
  | .integer i => .scalar (.integer i) 0 0
  | .real d => .scalar (.real d) 0 0
  | .string s => .scalar (.string s) 0 0
  | .array items => .list (toItems items) 0
  | .object fields => .object (toEntries fields) 0

def toItems : List Json → Items
  | [] => .closed 0
  | j :: js => .cons (toTree j) 0 (toItems js)

def toEntries : List (String × Json) → Entries
  | [] => .closed 0
  | (k, j) :: fs => .cons ⟨k, 0, 0⟩ (toTree j) 0 (toEntries fs)

end

end Conform.Json
