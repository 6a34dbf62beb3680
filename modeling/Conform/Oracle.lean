import Conform.Literal

/-! Oracles: what answers questions about types. A type is a descriptor, told apart from others
by equality alone, and nothing else is known of it but what its oracle says. -/

namespace Conform

/-- What a type can be. The first trait that an oracle affirms, in this order, decides. -/
inductive Trait where
  | boolean
  | booleanLiteral
  | number
  | numberLiteral
  | bigint
  | bigintLiteral
  | string
  | stringLiteral
  | null
  | undefined
  /-- Objects of whatever fields, not a record. -/
  | bareObject
  | any
  | union
  | record
  | array
  deriving DecidableEq, Repr

def Trait.all : List Trait :=
  [.boolean, .booleanLiteral, .number, .numberLiteral, .bigint, .bigintLiteral, .string,
    .stringLiteral, .null, .undefined, .bareObject, .any, .union, .record, .array]

theorem Trait.mem_all (t : Trait) : t ∈ Trait.all := by cases t <;> decide

structure Oracle (D : Type) where
  /-- All types that the answers can lead to. -/
  descriptors : List D
  is : D → Trait → Bool
  unionMembers : D → List D
  /-- In the order of their declaration. -/
  recordFields : D → List (String × D)
  arrayElement : D → Option D
  literalValue : D → Option Literal
  typeName : D → String

namespace Oracle

variable {D : Type}

def traits (o : Oracle D) (d : D) : List Trait := Trait.all.filter (o.is d)

def trait? (o : Oracle D) (d : D) : Option Trait := Trait.all.find? (o.is d)

end Oracle

/-- A wish for a validator of a type. -/
structure Request (D : Type) where
  name : String
  root : D

/-- A conversion: values that fail every test of `result` go through `body`. -/
structure Hook (D : Type) where
  result : D
  body : String
  conversion : Nat

end Conform
