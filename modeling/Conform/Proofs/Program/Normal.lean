import Conform.Program.Run
import Conform.Program.TypeScript
import Conform.Proofs.Schema.Same

/-! Programs with one zero in place of both. A literal is the same for either zero, and so is all
that programs are for: the text of a program with one zero is the same, and so is what its
validators do. -/

namespace Conform

/-- A test with one zero in place of both. -/
def Test.normal : Test → Test
  | .equals place literal => .equals place literal.normal
  | t => t

mutual

def Stmt.normal : Stmt → Stmt
  | .check branches otherwise => .check (branchesNormal branches) otherwise
  | .forEach array depth body => .forEach array depth (allNormal body)
  | s => s

def allNormal : List Stmt → List Stmt
  | [] => []
  | s :: ss => s.normal :: allNormal ss

def branchesNormal : List Branch → List Branch
  | [] => []
  | .mk label test body :: bs => .mk label test.normal (allNormal body) :: branchesNormal bs

end

def Validator.normal (v : Validator) : Validator := { v with body := allNormal v.body }

def RecordCheck.normal (c : RecordCheck) : RecordCheck := { c with body := allNormal c.body }

/-- A program with one zero in place of both. -/
def Program.normal (p : Program) : Program where
  validators := p.validators.map Validator.normal
  recordChecks := p.recordChecks.map RecordCheck.normal
  routines := p.routines

theorem allNormal_append (ss ss' : List Stmt) :
    allNormal (ss ++ ss') = allNormal ss ++ allNormal ss' := by
  induction ss with
  | nil => rfl
  | cons s ss ih => rw [List.cons_append, allNormal, ih, allNormal, List.cons_append]

theorem branchesNormal_append (bs bs' : List Branch) :
    branchesNormal (bs ++ bs') = branchesNormal bs ++ branchesNormal bs' := by
  induction bs with
  | nil => rfl
  | cons b bs ih =>
    obtain ⟨label, test, body⟩ := b
    rw [List.cons_append, branchesNormal, ih, branchesNormal, List.cons_append]

theorem labels_branchesNormal (bs : List Branch) :
    (branchesNormal bs).map (·.label) = bs.map (·.label) := by
  induction bs with
  | nil => rfl
  | cons b bs ih =>
    obtain ⟨label, test, body⟩ := b
    rw [branchesNormal, List.map_cons, List.map_cons, ih]
    rfl

/-! ### Text -/

namespace TypeScript

theorem literal_normal (l : Literal) : literal l.normal = literal l := by
  cases l with
  | number d => exact Numeral.text_normal d
  | _ => rfl

theorem test_normal (t : Test) : test t.normal = test t := by
  cases t with
  | equals place l => rw [Test.normal, test, literal_normal, test]
  | _ => rfl

mutual

theorem stmt_normal (depth : Nat) (s : Stmt) : stmt depth s.normal = stmt depth s := by
  cases s with
  | check branches otherwise => rw [Stmt.normal, stmt, branches_normal depth _ branches, stmt]
  | convert conversion target => rfl
  | forEach array counter body => rw [Stmt.normal, stmt, block_normal (depth + 1) body, stmt]
  | call record value path => rfl

theorem block_normal (depth : Nat) (ss : List Stmt) :
    block depth (allNormal ss) = block depth ss := by
  cases ss with
  | nil => rfl
  | cons s ss => rw [allNormal, block, stmt_normal depth s, block_normal depth ss, block]

theorem branches_normal (depth : Nat) (keyword : String) (bs : List Branch) :
    branches depth keyword (branchesNormal bs) = branches depth keyword bs := by
  match bs with
  | [] => rfl
  | .mk label t [] :: bs =>
    rw [branchesNormal, allNormal, branches, branches, test_normal, branches_normal depth _ bs]
  | .mk label t (s :: ss) :: bs =>
    rw [branchesNormal, allNormal, branches, branches, test_normal, branches_normal depth _ bs,
      stmt_normal (depth + 1) s, block_normal (depth + 1) ss]

end

/-- The sign of zeros does not show in the text of a program. -/
theorem items_normal (imports : List String) (p : Program) :
    items imports p.normal = items imports p := by
  have hv : validator ∘ Validator.normal = validator :=
    funext fun v => by simp only [Function.comp, validator, Validator.normal, block_normal]
  have hc : recordCheck ∘ RecordCheck.normal = recordCheck :=
    funext fun c => by simp only [Function.comp, recordCheck, RecordCheck.normal, block_normal]
  simp only [items, Program.normal, List.map_map, hv, hc]

end TypeScript

/-! ### Runs -/

theorem Double.normal_normal (d : Double) : d.normal.normal = d.normal := by
  unfold Double.normal
  split_ifs <;> rfl

theorem Literal.normal_normal (l : Literal) : l.normal.normal = l.normal := by
  cases l with
  | number d => exact congrArg Literal.number d.normal_normal
  | _ => rfl

theorem State.holds_normal (st : State) (t : Test) : st.holds t.normal = st.holds t := by
  cases t with
  | equals place l => exact Value.strictEq_of_same (Literal.same_iff.2 l.normal_normal)
  | _ => rfl

mutual

theorem Stmt.run_normal (env : Env) (s : Stmt) (st : State) :
    s.normal.run env st = s.run env st := by
  cases s with
  | check branches otherwise => exact runBranches_normal env otherwise branches st
  | convert conversion target => rfl
  | forEach array depth body =>
    have h : runAll env (allNormal body) = runAll env body :=
      funext fun st => runAll_normal env body st
    simp only [Stmt.normal, Stmt.run, h]
  | call record value path => rfl

theorem runAll_normal (env : Env) (ss : List Stmt) (st : State) :
    runAll env (allNormal ss) st = runAll env ss st := by
  cases ss with
  | nil => rfl
  | cons s ss =>
    have h : runAll env (allNormal ss) = runAll env ss := funext fun st => runAll_normal env ss st
    rw [allNormal, runAll, Stmt.run_normal env s st, h, runAll]

theorem runBranches_normal (env : Env) (otherwise : Fallback) (bs : List Branch) (st : State) :
    runBranches env otherwise (branchesNormal bs) st = runBranches env otherwise bs st := by
  match bs with
  | [] => rfl
  | .mk label test body :: bs =>
    rw [branchesNormal, runBranches, st.holds_normal, runAll_normal env body st,
      runBranches_normal env otherwise bs st, runBranches]

end

namespace Program

variable (p : Program) (ts : Transforms)

theorem recordCheck?_normal (record : RecordId) :
    p.normal.recordCheck? record = (p.recordCheck? record).map RecordCheck.normal := by
  simp only [recordCheck?, Program.normal, List.filter_map, List.getLast?_map]
  rfl

theorem checkRecord_normal (depth : Nat) :
    p.normal.checkRecord ts depth = p.checkRecord ts depth := by
  induction depth with
  | zero =>
    funext record
    rw [checkRecord, checkRecord, recordCheck?_normal, Option.map_map]
    rfl
  | succ depth ih =>
    funext record
    rw [checkRecord, checkRecord, recordCheck?_normal, Option.map_map, ih]
    congr 1
    funext check given v
    exact congrArg (· >>= _) (runAll_normal _ check.body _)

/-- The sign of zeros does not matter to what a validator does. -/
theorem validate_normal (name : String) (v : Value) :
    p.normal.validate ts name v = p.validate ts name v := by
  have hfind : p.normal.validator? name = (p.validator? name).map Validator.normal := by
    simp only [validator?, Program.normal, List.find?_map]
    rfl
  rw [validate, validate, hfind, checkRecord_normal]
  cases p.validator? name with
  | none => rfl
  | some validator => exact congrArg (· >>= _) (runAll_normal _ validator.body _)

end Program

end Conform
