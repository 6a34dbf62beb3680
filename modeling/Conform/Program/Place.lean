import Conform.Value

/-! Places: locations inside the value that a routine was given. A place is read and written
along its steps, which are found with the counters of the loops around it. -/

namespace Conform

inductive Place where
  | param
  | field (base : Place) (name : String)
  /-- The item that the loop of this depth stands at; the outermost loop has depth 0. -/
  | item (base : Place) (depth : Nat)
  deriving DecidableEq, Repr

abbrev Counters := List Nat

namespace Counters

def get (cs : Counters) (depth : Nat) : Nat := cs[depth]?.getD 0

def put (cs : Counters) (depth value : Nat) : Counters :=
  (cs ++ List.replicate (depth + 1 - cs.length) 0).set depth value

def reach (cs : Counters) (depth : Nat) : Counters :=
  cs ++ List.replicate (depth + 1 - cs.length) 0

end Counters

/-- One step into a value. An item has no number if its counter is not set. -/
inductive Step where
  | field (name : String)
  | item (index : Option Nat)
  deriving DecidableEq, Repr

namespace Place

def steps (cs : Counters) : Place → List Step
  | .param => []
  | .field base name => base.steps cs ++ [.field name]
  | .item base depth => base.steps cs ++ [.item cs[depth]?]

def read (cs : Counters) (v : Value) : Place → Value
  | .param => v
  | .field base name => (base.read cs v).get name
  | .item base depth => (base.read cs v).item (cs.get depth)

end Place

namespace Value

/-- The value in the slot that steps lead to. Fields are slots of objects that have them, items
of arrays that are long enough. -/
def slot? (v : Value) : List Step → Option Value
  | [] => some v
  | .field name :: steps => match v with
    | .object fields => (Fields.get? name fields).bind (·.slot? steps)
    | _ => none
  | .item index :: steps => match v, index with
    | .array items, some i => items[i]?.bind (·.slot? steps)
    | _, _ => none

/-- Writes into the slot that steps lead to. On the way a missing field of an object becomes
undefined, and stays so where a later step has no slot. -/
def write (w : Value) : List Step → Value → Value
  | [], _ => w
  | .field name :: steps, v => match v with
    | .object fields =>
      .object (Fields.put name (write w steps ((Fields.get? name fields).getD .undefined)) fields)
    | _ => v
  | .item index :: steps, v => match v, index with
    | .array items, some i => .array (items.modify i (write w steps))
    | _, _ => v

end Value

end Conform
