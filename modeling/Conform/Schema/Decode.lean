import Conform.Json.Reader
import Conform.Schema.Document

/-! Schema documents from data. A document is decoded from the front, so that the first thing
that is wrong is the one reported, be it text that is no data or data of the wrong form. -/

namespace Conform

open Json (Tree Items Entries Key Stop Fault Position)

/-- A step on the way to what is wrong. -/
inductive Segment where
  | key (name : String)
  | item (index : Nat)
  /-- A field whose name is not known. -/
  | unknown
  deriving DecidableEq, Repr

def trailText : List Segment → String
  | [] => "."
  | s :: ss => head s ++ String.join (ss.map tail)
where
  head : Segment → String
    | .key name => name
    | .item index => "[" ++ toString index ++ "]"
    | .unknown => "?"
  tail : Segment → String
    | .item index => head (.item index)
    | s => "." ++ head s

inductive Cause where
  | fault (f : Fault)
  | invalidType (found wanted : String)
  | notSingleKey
  | unknownField (name : String) (known : List String)
  | missingField (name : String)
  | duplicateField (name : String)
  | unknownVariant (name : String) (known : List String)
  | invalidLength (length : Nat) (wanted : String)
  | noTypeExpr
  deriving DecidableEq, Repr

def ticked (s : String) : String := "`" ++ s ++ "`"

def oneOf : List String → String
  | [a] => ticked a
  | [a, b] => ticked a ++ " or " ++ ticked b
  | names => "one of " ++ ", ".intercalate (names.map ticked)

def Cause.message : Cause → String
  | .fault f => f.message
  | .invalidType found wanted => "invalid type: " ++ found ++ ", expected " ++ wanted
  | .notSingleKey => "invalid value: map, expected map with a single key"
  | .unknownField name known => "unknown field " ++ ticked name ++ ", expected " ++ oneOf known
  | .missingField name => "missing field " ++ ticked name
  | .duplicateField name => "duplicate field " ++ ticked name
  | .unknownVariant name known => "unknown variant " ++ ticked name ++ ", expected " ++ oneOf known
  | .invalidLength n wanted => "invalid length " ++ toString n ++ ", expected " ++ wanted
  | .noTypeExpr => "data did not match any variant of untagged enum TypeExpr"

/-- What is wrong, where in the document, and at which offset of its text. A cause without an
offset gets that of leaving the list or object around it. -/
structure Failure where
  trail : List Segment
  cause : Cause
  offset : Option Nat
  deriving DecidableEq, Repr

namespace Failure

def within (s : Segment) (f : Failure) : Failure := { f with trail := s :: f.trail }

def settle (offset : Nat) (f : Failure) : Failure := { f with offset := f.offset.or (some offset) }

end Failure

/-- Where data comes from. Text has positions, and lists that are too long and variants of a
wrong form are found out differently. -/
inductive Source where
  | text
  | data
  deriving DecidableEq, Repr

abbrev Decoded (α : Type) := Except Failure α

namespace Decode

variable {α : Type}

def stopped (s : Stop) : Decoded α := .error ⟨[], .fault s.fault, some s.offset⟩

def scalarText : Json.Scalar → String
  | .null => "null"
  | .bool b => "boolean " ++ ticked (if b then "true" else "false")
  | .integer i => "integer " ++ ticked (String.ofList (Json.integerChars i))
  | .real d => "floating point " ++ ticked (Numeral.data.text d)
  | .string s => "string " ++ Text.escaped s

/-- Data of another form than wanted. A scalar is read first, a list or object is not. -/
def mismatch (wanted : String) : Tree → Decoded α
  | .scalar value _ stop => .error ⟨[], .invalidType (scalarText value) wanted, some stop⟩
  | .list _ start => .error ⟨[], .invalidType "sequence" wanted, some start⟩
  | .object _ start => .error ⟨[], .invalidType "map" wanted, some start⟩
  | .stopped _ _ s => stopped s

def string : Tree → Decoded String
  | .scalar (.string s) _ _ => .ok s
  | t => mismatch "a string" t

def items (decode : Tree → Decoded α) (index : Nat) : Items → Decoded (List α)
  | .closed _ => .ok []
  | .stopped s => stopped s
  | .cons value close rest => do
    let a ← (decode value).mapError fun f => (f.settle close).within (.item index)
    return a :: (← items decode (index + 1) rest)

def list (decode : Tree → Decoded α) : Tree → Decoded (List α)
  | .list is _ => items decode 0 is
  | t => mismatch "a sequence" t

/-- Where reading stops in place of a field. -/
def stoppedField (s : Stop) : Decoded α := (stopped s).mapError (Failure.within .unknown)

def entries (decode : Tree → Decoded α) (done : List (String × α)) :
    Entries → Decoded (List (String × α))
  | .closed _ => .ok done
  | .stopped s => stoppedField s
  | .noValue _ s => stopped s
  | .cons key value close rest => do
    let a ← (decode value).mapError fun f => (f.settle close).within (.key key.name)
    entries decode (Fields.put key.name a done) rest

def map (decode : Tree → Decoded α) : Tree → Decoded (List (String × α))
  | .object es _ => entries decode [] es
  | t => mismatch "a map" t

/-! ### Structures -/

structure Field (α : Type) where
  name : String
  required : Bool
  set : α → Tree → Decoded α

structure Struct (α : Type) where
  name : String
  fields : List (Field α)

namespace Struct

def names (st : Struct α) : List String := st.fields.map (·.name)

def wanted (st : Struct α) : String := "struct " ++ st.name

def lengthWanted (st : Struct α) : String :=
  st.wanted ++ " with " ++ toString st.fields.length ++ " elements"

/-- The field of a key that was not there before. -/
def field (st : Struct α) (seen : List String) (key : Key) : Decoded (Field α) :=
  match st.fields.find? (·.name == key.name) with
  | none => .error ⟨[.key key.name], .unknownField key.name st.names, some key.close⟩
  | some f =>
    if seen.contains key.name then .error ⟨[], .duplicateField key.name, some key.close⟩
    else .ok f

def ofEntries (st : Struct α) (seen : List String) (a : α) : Entries → Decoded α
  | .closed offset =>
    match st.fields.find? fun f => f.required && !seen.contains f.name with
    | some f => .error ⟨[], .missingField f.name, some offset⟩
    | none => .ok a
  | .stopped s => stoppedField s
  | .noValue key s => do
    let _ ← st.field seen key
    stopped s
  | .cons key value close rest => do
    let f ← st.field seen key
    let a ← (f.set a value).mapError fun e => (e.settle close).within (.key key.name)
    ofEntries st (key.name :: seen) a rest

def count : Items → Nat
  | .cons _ _ rest => count rest + 1
  | _ => 0

/-- How a text stops where a list was to end: nothing is wanted behind another comma. -/
def stopAtEnd (s : Stop) : Stop :=
  match s.fault with
  | .expectedListCommaOrEnd | .eofInValue => { s with fault := .trailingCharacters }
  | _ => s

/-- The list form of a structure: its fields in order, of which the last may be left out if none
of them is required. `index` counts the items before and `close` is the offset behind them. -/
def ofItems (src : Source) (st : Struct α) (a : α) :
    List (Field α) → Nat → Nat → Items → Decoded α
  | [], _, _, .closed _ => .ok a
  | [], _, _, .stopped s => stopped (stopAtEnd s)
  | [], index, close, .cons _ _ rest =>
    match src with
    | .text => stopped ⟨.trailingCharacters, close + 1⟩
    | .data =>
      .error ⟨[], .invalidLength (index + 1 + count rest) "fewer elements in array", none⟩
  | f :: fs, index, _, .closed offset =>
    if f.required then .error ⟨[], .invalidLength index st.lengthWanted, some offset⟩
    else ofItems src st a fs index offset (.closed offset)
  | _ :: _, _, _, .stopped s => stopped s
  | f :: fs, index, _, .cons value close rest => do
    let a ← (f.set a value).mapError fun e => (e.settle close).within (.item index)
    ofItems src st a fs (index + 1) close rest

def decode (st : Struct α) (src : Source) (init : α) : Tree → Decoded α
  | .object es _ => st.ofEntries [] init es
  | .list is start => st.ofItems src init st.fields 0 start is
  | t => mismatch st.wanted t

end Struct

/-! ### Type expressions -/

mutual

/-- Where reading stops inside a tree, if it does. -/
def stopIn? : Tree → Option Failure
  | .scalar _ _ _ => none
  | .list is _ => stopInItems? 0 is
  | .object es _ => stopInEntries? es
  | .stopped _ _ s => some ⟨[], .fault s.fault, some s.offset⟩

def stopInItems? (index : Nat) : Items → Option Failure
  | .closed _ => none
  | .stopped s => some ⟨[], .fault s.fault, some s.offset⟩
  | .cons value _ rest =>
    ((stopIn? value).map (Failure.within (.item index))).or (stopInItems? (index + 1) rest)

def stopInEntries? : Entries → Option Failure
  | .closed _ => none
  | .stopped s => some ⟨[.unknown], .fault s.fault, some s.offset⟩
  | .noValue _ s => some ⟨[], .fault s.fault, some s.offset⟩
  | .cons key value _ rest =>
    ((stopIn? value).map (Failure.within (.key key.name))).or (stopInEntries? rest)

end

def literal? : Tree → Option Literal
  | .scalar (.bool b) _ _ => some (.boolean b)
  | .scalar (.integer i) _ _ => some (.number (.ofInt i))
  | .scalar (.real d) _ _ => some (.number d)
  | .scalar (.string s) _ _ => some (.string s)
  | _ => none

def string? : Tree → Option String
  | .scalar (.string s) _ _ => some s
  | _ => none

mutual

/-- A name, or an object of one field that says what it holds. -/
def typeExpr? : Tree → Option TypeExpr
  | .scalar (.string s) _ _ => some (.name s)
  | .object (.cons key value _ (.closed _)) _ =>
    if key.name = "literal" then (literal? value).map .literal
    else if key.name = "bigint" then (string? value).map .bigint
    else if key.name = "array" then (typeExpr? value).map .array
    else if key.name = "union" then
      match value with
      | .list is _ => (typeExprs? is).map .union
      | _ => none
    else if key.name = "record" then
      match value with
      | .object es _ => (fieldExprs? es).map fun fs => .record (Fields.collect fs)
      | _ => none
    else none
  | _ => none

def typeExprs? : Items → Option (List TypeExpr)
  | .closed _ => some []
  | .stopped _ => none
  | .cons value _ rest => do return (← typeExpr? value) :: (← typeExprs? rest)

def fieldExprs? : Entries → Option (List (String × TypeExpr))
  | .closed _ => some []
  | .cons key value _ rest => do return (key.name, ← typeExpr? value) :: (← fieldExprs? rest)
  | _ => none

end

/-- Type expressions are read to their end before their form is looked at. -/
def typeExpr (t : Tree) : Decoded TypeExpr :=
  match stopIn? t with
  | some f => .error f
  | none =>
    match typeExpr? t with
    | some e => .ok e
    | none => .error ⟨[], .noTypeExpr, none⟩

/-! ### Builtins -/

def variant (offset : Option Nat) (name : String) : Decoded Builtin :=
  match Builtin.ofName? name with
  | some b => .ok b
  | none => .error ⟨[], .unknownVariant name (Builtin.all.map (·.name)), offset⟩

/-- The value beside a variant that has none: null. -/
def unit : Tree → Decoded Unit
  | .scalar .null _ _ => .ok ()
  | t => mismatch "unit" t

/-- How a text stops after the one field of a variant: only its end is wanted. -/
def afterVariant (close : Nat) : Entries → Decoded Unit
  | .closed _ => .ok ()
  | .stopped ⟨.eofInObject, offset⟩ => stopped ⟨.eofInObject, offset⟩
  | _ => stopped ⟨.expectedValue, close⟩

/-- The object form of a variant in a text: its name and null. -/
def variantOfEntries : Entries → Decoded Builtin
  | .closed offset => stopped ⟨.expectedValue, offset⟩
  | .stopped s => stopped s
  | .noValue key s => do
    let _ ← variant (some key.stop) key.name
    stopped s
  | .cons key value close rest => do
    let b ← variant (some key.stop) key.name
    (unit value).mapError (Failure.within (.key key.name))
    afterVariant close rest
    return b

def builtinOfText : Tree → Decoded Builtin
  | .scalar (.string s) _ stop => variant (some stop) s
  | .scalar _ start _ => stopped ⟨.expectedValue, start + 1⟩
  | .list _ start => stopped ⟨.expectedValue, start + 1⟩
  | .object es _ => variantOfEntries es
  | .stopped first start s =>
    if first = none || first = some '"' || first = some 'n' || first = some '\x7b' then stopped s
    else stopped ⟨.expectedValue, start + 1⟩

def builtinOfData : Tree → Decoded Builtin
  | .scalar (.string s) _ _ => variant none s
  | .object (.cons key value _ (.closed _)) _ => do
    let b ← variant none key.name
    (unit value).mapError (Failure.within (.key key.name))
    return b
  | .object _ _ => .error ⟨[], .notSingleKey, none⟩
  | t => mismatch "string or map" t

def builtin : Source → Tree → Decoded Builtin
  | .text => builtinOfText
  | .data => builtinOfData

def optionalBuiltin (src : Source) : Tree → Decoded (Option Builtin)
  | .scalar .null _ _ => .ok none
  | t => (builtin src t).map some

/-! ### Documents -/

def conversionSpec (src : Source) (t : Tree) : Decoded ConversionSpec :=
  Struct.decode ⟨"ConversionSpec", [
    ⟨"type", true, fun c t => do return { c with type := ← typeExpr t }⟩,
    ⟨"body", false, fun c t => do return { c with body := ← string t }⟩,
    ⟨"builtin", false, fun c t => do return { c with builtin := ← optionalBuiltin src t }⟩]⟩
    src ⟨.name "", "", none⟩ t

def generateSpec (src : Source) (t : Tree) : Decoded GenerateSpec :=
  Struct.decode ⟨"GenerateSpec", [
    ⟨"name", true, fun g t => do return { g with name := ← string t }⟩,
    ⟨"type", true, fun g t => do return { g with type := ← typeExpr t }⟩]⟩
    src ⟨"", .name ""⟩ t

def document (src : Source) (t : Tree) : Decoded Document :=
  Struct.decode ⟨"SchemaDocument", [
    ⟨"fileName", false, fun d t => do return { d with fileName := ← string t }⟩,
    ⟨"imports", false, fun d t => do return { d with imports := ← list string t }⟩,
    ⟨"types", false, fun d t => do return { d with types := ← map typeExpr t }⟩,
    ⟨"conversions", false, fun d t => do
      return { d with conversions := ← list (conversionSpec src) t }⟩,
    ⟨"generate", false, fun d t => do return { d with generate := ← list (generateSpec src) t }⟩]⟩
    src .empty t

end Decode

structure DecodeError where
  failure : Failure
  position : Option Position
  deriving DecidableEq, Repr

namespace DecodeError

def path (e : DecodeError) : String := trailText e.failure.trail

def message (e : DecodeError) : String :=
  "at JSON path " ++ e.path ++ " → " ++ e.failure.cause.message ++
    ((e.position.map (·.suffix)).getD "")

end DecodeError

namespace Document

def ofText (s : String) : Except DecodeError Document :=
  let cs := s.toList
  (Decode.document .text (Tree.ofText cs)).mapError fun f =>
    ⟨f, f.offset.map (Position.ofOffset cs)⟩

def ofJson (j : Json) : Except DecodeError Document :=
  (Decode.document .data (Json.toTree j)).mapError fun f => ⟨f, none⟩

end Document

/-- A type expression by its data, outside of a document. -/
def TypeExpr.ofJson (j : Json) : Except DecodeError TypeExpr :=
  (Decode.typeExpr (Json.toTree j)).mapError fun f => ⟨f, none⟩

/-- A builtin by its data, outside of a document. -/
def Builtin.ofJson (j : Json) : Except Cause Builtin :=
  (Decode.builtin .data (Json.toTree j)).mapError (·.cause)

end Conform
