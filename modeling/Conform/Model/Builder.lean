import Conform.Model.Basic

/-! Building a model. A type gets its node before its parts are looked at, so that a type may be
part of itself; a type that failed keeps the node it had by then. -/

namespace Conform

structure Builder (D : Type) where
  nodes : Array Node
  /-- The nodes of types that were looked at. -/
  known : List (D × NodeId)
  recordCount : Nat
  /-- The node that stands for `true` and `false` together. -/
  bothBooleans : Option NodeId
  /-- Unions whose members are being folded, and those where that failed. -/
  folding : List NodeId

namespace Builder

variable {D : Type} [DecidableEq D]

def empty : Builder D := ⟨#[], [], 0, none, []⟩

/-- A result together with the builder, which keeps what was built before an error. -/
abbrev Result (D α : Type) := Except CompileError α × Builder D

def node? (b : Builder D) (id : NodeId) : Option Node := b.nodes[id]?

def kind (b : Builder D) (id : NodeId) : NodeKind := ((b.node? id).map (·.kind)).getD .any

def name (b : Builder D) (id : NodeId) : String := ((b.node? id).map (·.name)).getD ""

def setKind (b : Builder D) (id : NodeId) (kind : NodeKind) : Builder D :=
  { b with nodes := b.nodes.modify id fun n => { n with kind } }

def addNode (b : Builder D) (node : Node) : NodeId × Builder D :=
  (b.nodes.size, { b with nodes := b.nodes.push node })

/-! ### Folding members of a union -/

def isBoolean (b : Builder D) (id : NodeId) : Bool := b.kind id == .boolean

def booleanLiteral? (b : Builder D) (id : NodeId) : Option Bool :=
  match b.kind id with
  | .literal (.boolean v) => some v
  | _ => none

def isArray (b : Builder D) (id : NodeId) : Bool :=
  match b.kind id with
  | .array _ => true
  | _ => false

def isRecord (b : Builder D) (id : NodeId) : Bool :=
  match b.kind id with
  | .record _ _ => true
  | _ => false

def isConversion (b : Builder D) (id : NodeId) : Bool :=
  match b.kind id with
  | .conversion _ => true
  | _ => false

/-- The node of `true` and `false` together, made when it is first needed. -/
def both (b : Builder D) : NodeId × Builder D :=
  match b.bothBooleans with
  | some id => (id, b)
  | none =>
    let (id, b) := b.addNode ⟨"boolean", .boolean⟩
    (id, { b with bothBooleans := some id })

/-- A boolean takes the place of the first boolean literal, and the others go. -/
def foldBoolean (b : Builder D) (folded : List NodeId) (member : NodeId) : List NodeId :=
  match folded.findIdx? fun m => (b.booleanLiteral? m).isSome with
  | none => folded ++ [member]
  | some i =>
    folded.take i ++ member :: (folded.drop (i + 1)).filter fun m => (b.booleanLiteral? m).isNone

/-- A boolean literal makes a boolean of its opposite. -/
def foldBooleanLiteral (b : Builder D) (folded : List NodeId) (member : NodeId) (value : Bool) :
    List NodeId × Builder D :=
  match folded.findIdx? fun m => b.booleanLiteral? m == some !value with
  | none => (folded ++ [member], b)
  | some i => let (id, b) := b.both; (folded.set i id, b)

/-- An array goes in front of the first record, which any array would pass for. -/
def foldArray (b : Builder D) (folded : List NodeId) (member : NodeId) : List NodeId :=
  match folded.findIdx? b.isRecord with
  | none => folded ++ [member]
  | some i => folded.take i ++ member :: folded.drop i

def foldLeaf (union : NodeId) (b : Builder D) (folded : List NodeId) (member : NodeId) :
    Result D (List NodeId) :=
  if folded.contains member then (.ok folded, b)
  else match b.kind member with
    | .boolean =>
      if folded.any b.isBoolean then (.ok folded, b) else (.ok (b.foldBoolean folded member), b)
    | .literal (.boolean value) =>
      if folded.any b.isBoolean then (.ok folded, b)
      else let (folded, b) := b.foldBooleanLiteral folded member value; (.ok folded, b)
    | .array _ => (.ok (b.foldArray folded member), b)
    | .conversion _ =>
      if folded.any b.isConversion then (.error (.inUnion (b.name union)), b)
      else (.ok (folded ++ [member]), b)
    | _ => (.ok (folded ++ [member]), b)

def foldLeaves (union : NodeId) (b : Builder D) (folded : List NodeId) :
    List NodeId → Result D (List NodeId)
  | [] => (.ok folded, b)
  | m :: ms =>
    match foldLeaf union b folded m with
    | (.error e, b) => (.error e, b)
    | (.ok folded, b) => foldLeaves union b folded ms

/-- Folds in a member. A union stands for its members, which are no unions themselves. -/
def foldMember (union : NodeId) (b : Builder D) (folded : List NodeId) (member : NodeId) :
    Result D (List NodeId) :=
  match b.kind member with
  | .union members =>
    if b.folding.contains member then (.error (.circularUnion (b.name member)), b)
    else foldLeaves union b folded members
  | _ => foldLeaf union b folded member

/-! ### Resolving types -/

def resolveMembers (resolve : Builder D → D → Result D NodeId) (union : NodeId) :
    Builder D → List NodeId → List D → Result D (List NodeId)
  | b, folded, [] => (.ok folded, b)
  | b, folded, d :: ds =>
    match resolve b d with
    | (.error e, b) => (.error e, b)
    | (.ok member, b) =>
      match foldMember union b folded member with
      | (.error e, b) => (.error e, b)
      | (.ok folded, b) => resolveMembers resolve union b folded ds

/-- Resolves the fields of a record; the record has those that are done. -/
def resolveFields (resolve : Builder D → D → Result D NodeId) (id : NodeId) (record : RecordId) :
    Builder D → List (String × NodeId) → List (String × D) → Result D Unit
  | b, _, [] => (.ok (), b)
  | b, done, (name, d) :: fs =>
    match resolve b d with
    | (.error e, b) => (.error e, b)
    | (.ok member, b) =>
      let done := done ++ [(name, member)]
      resolveFields resolve id record (b.setKind id (.record record done)) done fs

def classify (o : Oracle D) (resolve : Builder D → D → Result D NodeId) (b : Builder D)
    (id : NodeId) (name : String) (d : D) : Result D Unit :=
  match o.trait? d with
  | none => (.error (.unclassified name), b)
  | some .boolean => (.ok (), b.setKind id .boolean)
  | some .number => (.ok (), b.setKind id .number)
  | some .bigint => (.ok (), b.setKind id .bigint)
  | some .string => (.ok (), b.setKind id .string)
  | some .null => (.ok (), b.setKind id .null)
  | some .undefined => (.ok (), b.setKind id .undefined)
  | some .bareObject => (.ok (), b.setKind id .object)
  | some .any => (.ok (), b.setKind id .any)
  | some .booleanLiteral | some .numberLiteral | some .bigintLiteral | some .stringLiteral =>
    match o.literalValue d with
    | none => (.error (.noLiteral name), b)
    | some value => (.ok (), b.setKind id (.literal value))
  | some .union =>
    let b := b.setKind id (.union [])
    match resolveMembers resolve id { b with folding := id :: b.folding } [] (o.unionMembers d) with
    | (.error e, b) => (.error e, b)
    | (.ok folded, b) =>
      (.ok (), { b.setKind id (.union folded) with folding := b.folding.filter (· != id) })
  | some .record =>
    let record := b.recordCount
    let b := b.setKind id (.record record [])
    resolveFields resolve id record { b with recordCount := record + 1 } [] (o.recordFields d)
  | some .array =>
    let b := b.setKind id (.array none)
    match o.arrayElement d with
    | none => (.error (.noElement name), b)
    | some element =>
      match resolve b element with
      | (.error e, b) => (.error e, b)
      | (.ok element, b) => (.ok (), b.setKind id (.array (some element)))

/-- Resolves a type. Types nest in each other through at most `depth` ones that are new; where
there are more, not all are listed. -/
def resolveWithin (o : Oracle D) (hooks : List (Hook D)) : Nat → Builder D → D → Result D NodeId
  | 0, b, d => (.error (.unlisted (o.typeName d)), b)
  | depth + 1, b, d =>
    match b.known.lookup d with
    | some id => (.ok id, b)
    | none =>
      let name := o.typeName d
      let (id, b) := b.addNode ⟨name, .any⟩
      let b := { b with known := (d, id) :: b.known }
      match hooks.find? (·.result == d) with
      | some hook => (.ok id, b.setKind id (.conversion hook.conversion))
      | none =>
        match classify o (resolveWithin o hooks depth) b id name d with
        | (.error e, b) => (.error e, b)
        | (.ok (), b) => (.ok id, b)

def resolve (o : Oracle D) (hooks : List (Hook D)) (b : Builder D) (d : D) : Result D NodeId :=
  resolveWithin o hooks (o.descriptors.length + 2) b d

/-- The first two hooks of one type. -/
def clash? : List (Hook D) → List (Hook D) → Option (Hook D × Hook D)
  | _, [] => none
  | before, h :: hs =>
    match before.find? (·.result == h.result) with
    | some first => some (first, h)
    | none => clash? (before ++ [h]) hs

def checkHooks (o : Oracle D) (hooks : List (Hook D)) : Except CompileError Unit :=
  match clash? [] hooks with
  | some (first, second) =>
    .error (.sameTarget (o.typeName second.result) first.conversion second.conversion)
  | none => .ok ()

def finish (b : Builder D) : Model := ⟨b.nodes, b.recordCount⟩

end Builder

end Conform
