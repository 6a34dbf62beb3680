import Conform.Proofs.Model.Alternatives
import Conform.Proofs.Model.Likeness
import Conform.Proofs.Program.Normal

/-! Programs with one zero in place of both. A program depends on the sign of a zero nowhere but in
the literals that its tests compare values with. -/

namespace Conform

/-- A node with one zero in place of both. -/
def Node.normal (n : Node) : Node := { n with kind := n.kind.normal }

/-- A model with one zero in place of both. -/
def Model.normal (m : Model) : Model := { m with nodes := m.nodes.map Node.normal }

def Chain.normal (c : Chain) : Chain := { c with branches := branchesNormal c.branches }

mutual

theorem Stmt.calls_normal (s : Stmt) : s.normal.calls = s.calls := by
  cases s with
  | check branches otherwise => exact branchCalls_normal branches
  | convert conversion target => rfl
  | forEach array depth body => exact allCalls_normal body
  | call record value path => rfl

theorem allCalls_normal (ss : List Stmt) : allCalls (allNormal ss) = allCalls ss := by
  cases ss with
  | nil => rfl
  | cons s ss => rw [allNormal, allCalls, Stmt.calls_normal s, allCalls_normal ss, allCalls]

theorem branchCalls_normal (bs : List Branch) :
    branchCalls (branchesNormal bs) = branchCalls bs := by
  match bs with
  | [] => rfl
  | .mk label test body :: bs =>
    rw [branchesNormal, branchCalls, allCalls_normal body, branchCalls_normal bs, branchCalls]

end

namespace Chain

variable (c : Chain) (place : Place) (path : Path)

theorem normal_add (label : String) (test : Test) (body : List Stmt) :
    (c.add label test body).normal = c.normal.add label test.normal (allNormal body) := by
  simp only [Chain.normal, Chain.add, branchesNormal_append, branchesNormal]

theorem isEmpty_normal : c.normal.branches.isEmpty = c.branches.isEmpty := by
  rw [Chain.normal]
  cases c.branches with
  | nil => rfl
  | cons b bs => obtain ⟨label, test, body⟩ := b; rfl

theorem otherwise_normal : c.normal.otherwise place path = c.otherwise place path := by
  simp only [Chain.otherwise, Chain.normal, Chain.labels, labels_branchesNormal]

theorem toStmts_normal : c.normal.toStmts place path = allNormal (c.toStmts place path) := by
  unfold Chain.toStmts
  rw [isEmpty_normal, otherwise_normal]
  split_ifs
  · rw [show c.normal.conversion = c.conversion from rfl]
    cases c.conversion <;> rfl
  · rfl

end Chain

theorem isEmpty_allNormal (ss : List Stmt) : (allNormal ss).isEmpty = ss.isEmpty := by
  cases ss <;> rfl

namespace Model

variable (m : Model)

theorem node?_normal (id : NodeId) : m.normal.node? id = (m.node? id).map Node.normal := by
  simp only [node?, Model.normal, Array.getElem?_map]

theorem recordMembers?_normal (record : RecordId) :
    m.normal.recordMembers? record = m.recordMembers? record := by
  unfold recordMembers?
  rw [Model.normal, Array.findSome?_map]
  congr 1
  funext node
  obtain ⟨name, kind⟩ := node
  cases kind <;> rfl

/-- Members extend a chain one after the other, each with the bound of the union. -/
theorem foldlM_extend_normal {bound : Nat} {active : List NodeId} {site : Site}
    (h : ∀ chain id, m.normal.extend bound active site chain.normal id =
      (m.extend bound active site chain id).map Chain.normal) (members : List NodeId)
    (chain : Chain) :
    members.foldlM (fun chain x => m.normal.extend bound active site chain x) chain.normal =
      (members.foldlM (fun chain x => m.extend bound active site chain x) chain).map
        Chain.normal := by
  induction members generalizing chain with
  | nil => rfl
  | cons x xs ih =>
    rw [List.foldlM_cons, List.foldlM_cons, h]
    cases m.extend bound active site chain x with
    | error e => rfl
    | ok c => exact ih c

/-- What a node adds to a chain in the model with one zero. -/
theorem extend_normal (bound : Nat) (active : List NodeId) (site : Site) (chain : Chain)
    (id : NodeId) : m.normal.extend bound active site chain.normal id =
      (m.extend bound active site chain id).map Chain.normal := by
  induction bound generalizing active site chain id with
  | zero =>
    rw [extend, extend, node?_normal, Option.map_map]
    rfl
  | succ bound ih =>
    rw [extend, extend, node?_normal]
    cases hn : m.node? id with
    | none => rfl
    | some node =>
      obtain ⟨name, kind⟩ := node
      rw [Option.map_some]
      cases kind with
      | literal value =>
        simp only [Node.normal, NodeKind.normal, Except.map, Chain.normal_add, Test.normal,
          allNormal, Literal.sourceForm_normal]
      | array element =>
        cases element with
        | none => rfl
        | some element =>
          simp only [Node.normal, NodeKind.normal]
          split_ifs
          · rfl
          · have hi := ih (id :: active) site.item .empty element
            rw [show Chain.empty.normal = Chain.empty from rfl] at hi
            rw [hi]
            cases m.extend bound (id :: active) site.item .empty element with
            | error e => rfl
            | ok items =>
              change Except.ok _ = Except.ok _
              rw [Chain.normal_add, Chain.toStmts_normal, isEmpty_allNormal]
              congr 2
              split_ifs <;> rfl
      | union members =>
        simp only [Node.normal, NodeKind.normal]
        split_ifs
        · rfl
        · exact m.foldlM_extend_normal (ih (id :: active) site) members chain
      | conversion n =>
        simp only [Node.normal, NodeKind.normal,
          show chain.normal.conversion = chain.conversion from rfl]
        cases chain.conversion with
        | none => rfl
        | some other =>
          dsimp only
          split_ifs <;> rfl
      | _ =>
        simp [Node.normal, NodeKind.normal, Except.map, Chain.normal_add, Test.normal, allNormal,
          Stmt.normal]

theorem stmts_normal (site : Site) (id : NodeId) :
    m.normal.stmts site id = (m.stmts site id).map allNormal := by
  have h := m.extend_normal (m.nodes.size + 1) [] site .empty id
  rw [show Chain.empty.normal = Chain.empty from rfl] at h
  rw [stmts, stmts, show m.normal.nodes.size = m.nodes.size by simp [Model.normal], h]
  cases m.extend (m.nodes.size + 1) [] site .empty id with
  | error e => rfl
  | ok chain => exact congrArg Except.ok (chain.toStmts_normal site.place site.path)

theorem fieldStmts_normal (fs : List (String × NodeId)) :
    m.normal.fieldStmts fs = (m.fieldStmts fs).map allNormal := by
  induction fs with
  | nil => rfl
  | cons f fs ih =>
    obtain ⟨name, id⟩ := f
    rw [fieldStmts, fieldStmts, stmts_normal, ih]
    cases m.stmts (.field name) id with
    | error e => rfl
    | ok body =>
      cases m.fieldStmts fs with
      | error e => rfl
      | ok rest => exact congrArg Except.ok (allNormal_append body rest).symm

theorem recordChecks_normal (bound : Nat) (done : List RecordCheck) (queue : List RecordId) :
    m.normal.recordChecks bound (done.map RecordCheck.normal) queue =
      (m.recordChecks bound done queue).map (List.map RecordCheck.normal) := by
  induction bound generalizing done queue with
  | zero => rfl
  | succ bound ih =>
    cases queue with
    | nil => rfl
    | cons record queue =>
      rw [recordChecks, recordChecks, recordMembers?_normal]
      cases m.recordMembers? record with
      | none => exact ih done queue
      | some members =>
        dsimp only
        rw [fieldStmts_normal]
        cases m.fieldStmts members with
        | error e => rfl
        | ok body =>
          have hdone : (done.map RecordCheck.normal).map (·.record) = done.map (·.record) := by
            rw [List.map_map]
            rfl
          have hnext := ih (done ++ [⟨record, body⟩])
          simp only [List.map_append] at hnext
          change m.normal.recordChecks bound _ _ = _
          rw [hdone, allCalls_normal]
          exact hnext _

theorem validators_normal (roots : List Root) :
    m.normal.validators roots = (m.validators roots).map (List.map Validator.normal) := by
  induction roots with
  | nil => rfl
  | cons root roots ih =>
    rw [validators, validators, stmts_normal, ih]
    cases m.stmts .root root.node with
    | error e => rfl
    | ok body =>
      cases m.validators roots with
      | error e => rfl
      | ok rest => rfl

/-- The program of the model with one zero. -/
theorem program_normal (roots : List Root) (routines : List Routine) :
    m.normal.program roots routines = (m.program roots routines).map Program.normal := by
  rw [program, program, validators_normal]
  cases m.validators roots with
  | error e => rfl
  | ok validators =>
    have hcalled : (validators.map Validator.normal).flatMap (fun v => allCalls v.body) =
        validators.flatMap fun v => allCalls v.body := by
      rw [List.flatMap_map]
      exact congrArg validators.flatMap (funext fun v => allCalls_normal v.body)
    have hchecks := m.recordChecks_normal (m.recordCount + 1) []
      (firstOccurrences (validators.flatMap fun v => allCalls v.body))
    change (m.normal.recordChecks (m.recordCount + 1) [] _ >>= _) =
      Except.map _ (m.recordChecks (m.recordCount + 1) [] _ >>= _)
    rw [hcalled]
    rw [List.map_nil] at hchecks
    rw [hchecks]
    cases m.recordChecks (m.recordCount + 1) []
        (firstOccurrences (validators.flatMap fun v => allCalls v.body)) with
    | error e => rfl
    | ok checks =>
      change Except.ok _ = Except.ok _
      rw [Program.normal, ← List.map_mergeSort]
      exact fun _ _ _ _ => rfl

/-- Models that differ in the sign of zeros alone have programs that do so. -/
theorem program_eq {m m' : Model} {roots : List Root} {routines : List Routine} {p p' : Program}
    (hm : m.normal = m'.normal) (h : m.program roots routines = .ok p)
    (h' : m'.program roots routines = .ok p') : p.normal = p'.normal := by
  have he := m.program_normal roots routines
  rw [hm, m'.program_normal, h, h'] at he
  exact (Except.ok.inj he).symm

end Model

end Conform
