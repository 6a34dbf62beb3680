import Conform.Model.Basic

/-! From a model to a program: every root becomes a validator, and every record type that is met
on the way a record check. Arrays and unions are written out where they stand. -/

namespace Conform

def firstOccurrences {α : Type _} [BEq α] (xs : List α) : List α :=
  xs.foldl (fun acc x => if acc.contains x then acc else acc ++ [x]) []

mutual

def Stmt.calls : Stmt → List RecordId
  | .check branches _ => branchCalls branches
  | .convert _ _ => []
  | .forEach _ _ body => allCalls body
  | .call record _ _ => [record]

def allCalls : List Stmt → List RecordId
  | [] => []
  | s :: ss => s.calls ++ allCalls ss

def branchCalls : List Branch → List RecordId
  | [] => []
  | .mk _ _ body :: bs => allCalls body ++ branchCalls bs

end

/-- The branches for a value and the conversion that takes what they leave. -/
structure Chain where
  branches : List Branch
  conversion : Option ConversionId

namespace Chain

def empty : Chain := ⟨[], none⟩

def add (c : Chain) (label : String) (test : Test) (body : List Stmt) : Chain :=
  { c with branches := c.branches ++ [.mk label test body] }

def labels (c : Chain) : List String := firstOccurrences (c.branches.map (·.label))

def otherwise (c : Chain) (place : Place) (path : Path) : Fallback :=
  match c.conversion with
  | some n => .convert n place
  | none => .fail path.folded c.labels

/-- The statements of a chain. Without branches there is nothing to fail. -/
def toStmts (c : Chain) (place : Place) (path : Path) : List Stmt :=
  if c.branches.isEmpty then
    match c.conversion with
    | some n => [.convert n place]
    | none => []
  else [.check c.branches (c.otherwise place path)]

end Chain

namespace Model

def node? (m : Model) (id : NodeId) : Option Node := m.nodes[id]?

def itemPath (path : Path) (depth : Nat) : Path :=
  .append (.append (.append path (.text "[")) (.counter depth)) (.text "]")

/-- Where a value is: its place, its path and the number of loops around it. -/
structure Site where
  place : Place
  path : Path
  depth : Nat

def Site.root : Site := ⟨.param, .text "value", 0⟩

def Site.item (s : Site) : Site :=
  ⟨.item s.place s.depth, itemPath s.path s.depth, s.depth + 1⟩

def Site.field (name : String) : Site :=
  ⟨.field .param name, .append .given (.text ("." ++ name)), 0⟩

/-- Adds what a node tests to a chain. `active` holds the arrays and unions around it: one that
is inside itself would have no end. The bound is the number of nodes, which `active` cannot pass. -/
def extend (m : Model) : Nat → List NodeId → Site → Chain → NodeId → Except CompileError Chain
  | 0, _, _, _, id => .error (.endless (((m.node? id).map (·.name)).getD ""))
  | bound + 1, active, site, chain, id =>
    match m.node? id with
    | none => .ok chain
    | some node =>
      match node.kind with
      | .any => .ok chain
      | .number => .ok (chain.add "Number" (.hasTag site.place .number) [])
      | .string => .ok (chain.add "String" (.hasTag site.place .string) [])
      | .boolean => .ok (chain.add "Boolean" (.hasTag site.place .boolean) [])
      | .undefined => .ok (chain.add "Undefined" (.hasTag site.place .undefined) [])
      | .bigint => .ok (chain.add "BigInt" (.hasTag site.place .bigint) [])
      | .object => .ok (chain.add "Object" (.isObject site.place) [])
      | .null => .ok (chain.add "Null" (.isNull site.place) [])
      | .literal value => .ok (chain.add value.sourceForm (.equals site.place value) [])
      | .record record _ =>
        .ok (chain.add "Object" (.isObject site.place)
          [.call record site.place site.path.folded])
      | .array none => .error (.noElement node.name)
      | .array (some element) =>
        if active.contains id then .error (.endless node.name)
        else do
          let items ← extend m bound (id :: active) site.item .empty element
          let body := items.toStmts site.item.place site.item.path
          return chain.add "Array" (.isArray site.place)
            (if body.isEmpty then [] else [.forEach site.place site.depth body])
      | .union members =>
        if active.contains id then .error (.endless node.name)
        else
          members.foldlM (fun chain member => extend m bound (id :: active) site chain member) chain
      | .conversion n =>
        match chain.conversion with
        | none => .ok { chain with conversion := some n }
        | some other => if other = n then .ok chain else .error (.inUnion node.name)

def stmts (m : Model) (site : Site) (id : NodeId) : Except CompileError (List Stmt) := do
  let chain ← m.extend (m.nodes.size + 1) [] site .empty id
  return chain.toStmts site.place site.path

def fieldStmts (m : Model) : List (String × NodeId) → Except CompileError (List Stmt)
  | [] => .ok []
  | (name, id) :: fs => do
    let body ← m.stmts (.field name) id
    return body ++ (← m.fieldStmts fs)

def recordMembers? (m : Model) (record : RecordId) : Option (List (String × NodeId)) :=
  m.nodes.findSome? fun node => match node.kind with
    | .record id members => if id = record then some members else none
    | _ => none

/-- Record checks for those that are called, then for those that they call in turn. There are
no more than there are records. -/
def recordChecks (m : Model) :
    Nat → List RecordCheck → List RecordId → Except CompileError (List RecordCheck)
  | 0, done, _ => .ok done
  | _ + 1, done, [] => .ok done
  | bound + 1, done, record :: queue =>
    match m.recordMembers? record with
    | none => m.recordChecks bound done queue
    | some members => do
      let body ← m.fieldStmts members
      let met := done.map (·.record) ++ record :: queue
      let new := (firstOccurrences (allCalls body)).filter fun r => !met.contains r
      m.recordChecks bound (done ++ [⟨record, body⟩]) (queue ++ new)

/-- A validator to write: its name, its node and the type that it returns. -/
structure Root where
  name : String
  node : NodeId
  returnType : String

def validators (m : Model) : List Root → Except CompileError (List Validator)
  | [] => .ok []
  | root :: roots => do
    let body ← m.stmts .root root.node
    return ⟨root.name, root.returnType, body⟩ :: (← m.validators roots)

def program (m : Model) (roots : List Root) (routines : List Routine) :
    Except CompileError Program := do
  let validators ← m.validators roots
  let called := firstOccurrences (validators.flatMap fun v => allCalls v.body)
  let checks ← m.recordChecks (m.recordCount + 1) [] called
  return {
    validators
    recordChecks := checks.mergeSort fun a b => a.record ≤ b.record
    routines := routines.mergeSort fun a b => a.conversion ≤ b.conversion }

end Model

end Conform
