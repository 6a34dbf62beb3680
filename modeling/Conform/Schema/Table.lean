import Conform.Fields
import Conform.Oracle
import Conform.Schema.Expr
import Conform.Text.Escaped
import Conform.Text.Identifier

/-! Tables of types. A declaration that is no alias has an entry of its own, an alias shares the
entry of its target, inline keywords, literals, arrays and unions have one entry for all that
are equal, and every inline record has a new entry. -/

namespace Conform

abbrev TypeId := Nat

inductive Shape where
  | keyword (k : Keyword)
  | literal (value : Literal)
  | array (element : TypeId)
  | union (members : List TypeId)
  | record (fields : List (String × TypeId))
  /-- A declaration whose body was not read yet. -/
  | pending
  deriving DecidableEq, Repr

namespace Shape

/-- Whether two inline shapes are one type. -/
def same : Shape → Shape → Bool
  | .keyword a, .keyword b => a == b
  | .literal a, .literal b => a.same b
  | .array a, .array b => a == b
  | .union as, .union bs => as == bs
  | _, _ => false

def trait? : Shape → Option Trait
  | .keyword .number => some .number
  | .keyword .string => some .string
  | .keyword .boolean => some .boolean
  | .keyword .bigint => some .bigint
  | .keyword .null => some .null
  | .keyword .undefined => some .undefined
  | .keyword .object => some .bareObject
  | .keyword .any => some .any
  | .keyword _ => none
  | .literal (.number _) => some .numberLiteral
  | .literal (.string _) => some .stringLiteral
  | .literal (.boolean _) => some .booleanLiteral
  | .literal (.bigint _) => some .bigintLiteral
  | .array _ => some .array
  | .union _ => some .union
  | .record _ => some .record
  | .pending => none

def isUnion : Shape → Bool
  | .union _ => true
  | _ => false

end Shape

structure Entry where
  name : Option String
  shape : Shape
  deriving DecidableEq, Repr

inductive ReferenceError where
  | unknownType (name : String)
  | aliasCycle (name : String)
  | invalidBigInt (text : String)
  deriving DecidableEq, Repr

def ReferenceError.message : ReferenceError → String
  | .unknownType name => "unknown type name `" ++ name ++ "`"
  | .aliasCycle name => "type alias `" ++ name ++ "` circularly references itself"
  | .invalidBigInt text => "invalid bigint literal `" ++ text ++ "`"

structure Table where
  entries : Array Entry
  names : List (String × TypeId)

namespace Table

def empty : Table := ⟨#[], []⟩

def lookup (t : Table) (name : String) : Option TypeId := Fields.get? name t.names

def bind (t : Table) (name : String) (id : TypeId) : Table :=
  { t with names := Fields.put name id t.names }

def alloc (t : Table) (entry : Entry) : TypeId × Table :=
  (t.entries.size, { t with entries := t.entries.push entry })

/-- The entry of an inline shape: the one that is there, or a new one. -/
def inline (t : Table) (shape : Shape) : TypeId × Table :=
  match t.entries.findIdx? fun e => e.name.isNone && e.shape.same shape with
  | some id => (id, t)
  | none => t.alloc ⟨none, shape⟩

/-- What a type expression comes to: an entry, or a shape that may need one. -/
inductive Lowered where
  | known (id : TypeId)
  | fresh (shape : Shape)

/-- A result together with the table, which keeps what was added before an error. -/
abbrev Result (α : Type) := Except ReferenceError α × Table

def settle : Result Lowered → Result TypeId
  | (.error e, t) => (.error e, t)
  | (.ok (.known id), t) => (.ok id, t)
  | (.ok (.fresh shape), t) => let (id, t) := t.inline shape; (.ok id, t)

def shaped {α : Type} (f : α → Shape) : Result α → Result Lowered
  | (.error e, t) => (.error e, t)
  | (.ok a, t) => (.ok (.fresh (f a)), t)

mutual

def lower (t : Table) : TypeExpr → Result Lowered
  | .name n =>
    match t.lookup n, Keyword.ofName? n with
    | some id, _ => (.ok (.known id), t)
    | none, some k => (.ok (.fresh (.keyword k)), t)
    | none, none => (.error (.unknownType n), t)
  | .literal value => (.ok (.fresh (.literal value)), t)
  | .bigint text =>
    match BigInt.parse? text with
    | some i => (.ok (.fresh (.literal (.bigint i))), t)
    | none => (.error (.invalidBigInt text), t)
  | .array element => shaped .array (settle (lower t element))
  | .union members => shaped .union (internAll t members)
  | .record fields => shaped .record (internFields t fields)

def internAll (t : Table) : List TypeExpr → Result (List TypeId)
  | [] => (.ok [], t)
  | e :: es =>
    match settle (lower t e) with
    | (.error err, t) => (.error err, t)
    | (.ok id, t) =>
      match internAll t es with
      | (.error err, t) => (.error err, t)
      | (.ok ids, t) => (.ok (id :: ids), t)

def internFields (t : Table) : List (String × TypeExpr) → Result (List (String × TypeId))
  | [] => (.ok [], t)
  | (name, e) :: fs =>
    match settle (lower t e) with
    | (.error err, t) => (.error err, t)
    | (.ok id, t) =>
      match internFields t fs with
      | (.error err, t) => (.error err, t)
      | (.ok ids, t) => (.ok ((name, id) :: ids), t)

end

/-- The entry of an inline type expression, with new entries where needed. -/
def intern (t : Table) (e : TypeExpr) : Result TypeId := settle (lower t e)

/-- Declared types in order, one per name. -/
abbrev Declarations := List (String × TypeExpr)

def slots (types : Declarations) : Table :=
  types.foldl (fun t (name, body) =>
    if body.isAlias then t else
      let (id, t) := t.alloc ⟨some name, .pending⟩
      t.bind name id) empty

/-- Follows names from declaration to declaration until one has an entry. `unseen` holds the
declarations that were not passed yet; each turn takes one of them. -/
def follow (t : Table) (types : Declarations) : Nat → Declarations → String →
    Except ReferenceError TypeId
  | fuel, unseen, name =>
    match t.lookup name with
    | some id => .ok id
    | none =>
      match fuel, Fields.get? name unseen with
      | fuel + 1, some (.name target) =>
        follow t types fuel (unseen.filter (·.1 != name)) target
      | _, _ =>
        match Fields.get? name types with
        | some (.name _) => .error (.aliasCycle name)
        | _ => .error (.unknownType name)

/-- Binds the aliases to the entries of their targets. -/
def aliases (types : Declarations) : Declarations → Table → Except ReferenceError Table
  | [], t => .ok t
  | (name, body) :: rest, t =>
    if body.isAlias then
      match t.follow types types.length types name with
      | .error e => .error e
      | .ok id => aliases types rest (t.bind name id)
    else aliases types rest t

/-- The shape of a declared body. A keyword is itself here, whatever is declared. -/
def body (t : Table) : TypeExpr → Result Shape
  | .name n =>
    match Keyword.ofName? n with
    | some k => (.ok (.keyword k), t)
    | none => (.error (.unknownType n), t)
  | e =>
    match t.lower e with
    | (.error err, t) => (.error err, t)
    | (.ok (.fresh shape), t) => (.ok shape, t)
    | (.ok (.known _), t) => (.ok .pending, t)

def setShape (t : Table) (id : TypeId) (shape : Shape) : Table :=
  { t with entries := t.entries.modify id fun e => { e with shape } }

def fill : Declarations → Table → Except ReferenceError Table
  | [], t => .ok t
  | (name, e) :: rest, t =>
    if e.isAlias then fill rest t
    else match t.body e with
      | (.error err, _) => .error err
      | (.ok shape, t) =>
        match t.lookup name with
        | some id => fill rest (t.setShape id shape)
        | none => fill rest t

/-- The table of a list of declarations: slots first, then aliases, then bodies. -/
def ofDeclarations (types : Declarations) : Except ReferenceError Table := do
  let t ← aliases types types (slots types)
  fill types t

/-! ### Names of types -/

def pendingName : String := "<pending>"

def shape (t : Table) (d : TypeId) : Shape := (t.entries[d]?.map (·.shape)).getD .pending

def isInlineUnion (t : Table) (d : TypeId) : Bool :=
  match t.entries[d]? with
  | some e => e.name.isNone && e.shape.isUnion
  | none => false

def fieldName (name : String) : String :=
  if Text.isIdentifier name then name else Text.quoted name

def recordName (fields : List (String × String)) : String :=
  if fields.isEmpty then "\x7b\x7d"
  else
    "\x7b " ++ " ".intercalate (fields.map fun (k, ty) => fieldName k ++ ": " ++ ty ++ ";") ++
      " \x7d"

/-- The name of a type among the first `bound` of a table, each of which is made of earlier and
of declared ones. -/
def nameBelow (t : Table) : Nat → TypeId → String
  | 0, d => ((t.entries[d]?).bind (·.name)).getD pendingName
  | bound + 1, d =>
    match t.entries[d]? with
    | none => pendingName
    | some ⟨some name, _⟩ => name
    | some ⟨none, shape⟩ =>
      match shape with
      | .keyword k => k.text
      | .literal (.string s) => Text.escaped s
      | .literal value => value.sourceForm
      | .array element =>
        if t.isInlineUnion element then "(" ++ t.nameBelow bound element ++ ")[]"
        else t.nameBelow bound element ++ "[]"
      | .union members => " | ".intercalate (members.map (t.nameBelow bound))
      | .record fields => recordName (fields.map fun (k, d) => (k, t.nameBelow bound d))
      | .pending => pendingName

def typeName (t : Table) (d : TypeId) : String := t.nameBelow t.entries.size d

/-! ### Answers -/

def unionMembers (t : Table) (d : TypeId) : List TypeId :=
  match t.shape d with
  | .union members => members
  | _ => []

def recordFields (t : Table) (d : TypeId) : List (String × TypeId) :=
  match t.shape d with
  | .record fields => fields
  | _ => []

def arrayElement (t : Table) (d : TypeId) : Option TypeId :=
  match t.shape d with
  | .array element => some element
  | _ => none

def literalValue (t : Table) (d : TypeId) : Option Literal :=
  match t.shape d with
  | .literal value => some value
  | _ => none

def oracle (t : Table) : Oracle TypeId where
  descriptors := List.range t.entries.size
  is d tr := (t.shape d).trait? == some tr
  unionMembers := t.unionMembers
  recordFields := t.recordFields
  arrayElement := t.arrayElement
  literalValue := t.literalValue
  typeName := t.typeName

end Table

end Conform
