import Conform.Proofs.Model.Safety

/-! What the statements of a program do by themselves: they fail, convert a value or call a record
check. Whatever error a run ends in comes from one of these acts. -/

namespace Conform

inductive Act where
  | fail (path : Path) (expected : List String)
  | convert (conversion : ConversionId) (target : Place)
  | call (record : RecordId) (value : Place) (path : Path)

def Fallback.act : Fallback → Act
  | .convert n target => .convert n target
  | .fail path expected => .fail path expected

mutual

/-- The acts of a statement, in order, whichever of them a run comes to. -/
def Stmt.acts : Stmt → List Act
  | .check branches otherwise => branchActs branches ++ [otherwise.act]
  | .convert n target => [.convert n target]
  | .forEach _ _ body => allActs body
  | .call record place path => [.call record place path]

def allActs : List Stmt → List Act
  | [] => []
  | s :: ss => s.acts ++ allActs ss

def branchActs : List Branch → List Act
  | [] => []
  | .mk _ _ body :: bs => allActs body ++ branchActs bs

end

/-- The bodies of validators, then those of record checks. -/
def Program.bodies (p : Program) : List (List Stmt) :=
  p.validators.map (·.body) ++ p.recordChecks.map (·.body)

section

variable {a : Act}

theorem allActs_append (xs ys : List Stmt) : allActs (xs ++ ys) = allActs xs ++ allActs ys := by
  induction xs with
  | nil => rfl
  | cons x xs ih => simp [allActs, ih]

theorem mem_branchActs {bs : List Branch} :
    a ∈ branchActs bs ↔ ∃ b ∈ bs, a ∈ allActs b.body := by
  induction bs with
  | nil => simp [branchActs]
  | cons b bs ih =>
    cases b
    simp [branchActs, ih, Branch.body]

end


/-! ### Errors -/

/-- Whether an act can end a run in an error. -/
inductive Act.Errs (env : Env) : Act → CheckError → Prop
  | fail {path : Path} {expected : List String} (s : State) :
      Errs env (.fail path expected) (.mismatch (s.pathText env path) expected)
  | unregistered {n : ConversionId} {target : Place} : env.transforms.get? n = none →
      Errs env (.convert n target) (.conversion n "no executable transform registered")
  | refused {n : ConversionId} {target : Place} {t : Transform} {v : Value} {message : String} :
      env.transforms.get? n = some t → t v = .error message →
      Errs env (.convert n target) (.conversion n message)
  | missing {record : RecordId} {value : Place} {path : Path} : env.check? record = none →
      Errs env (.call record value path) (.missingCheck record)
  | noSlot {record : RecordId} {value : Place} {path : Path} (s : State) :
      Errs env (.call record value path) (.noSlot (s.pathText env path))
  | called {record : RecordId} {value : Place} {path : Path} {v : Value} {e : CheckError}
      {check : String → Value → Except CheckError Value} (s : State) :
      env.check? record = some check → check (s.pathText env path) v = .error e →
      Errs env (.call record value path) e

section

variable {env : Env} {s : State} {e : CheckError}

theorem State.convert_errs {n : ConversionId} {target : Place}
    (h : s.convert env n target = .error e) : (Act.convert n target).Errs env e := by
  unfold convert at h
  split at h
  · rename_i hn
    cases h
    exact .unregistered hn
  · rename_i t ht
    split at h
    · rename_i message hm
      cases h
      exact .refused ht hm
    · cases h

theorem State.fallback_errs {f : Fallback} (h : s.fallback env f = .error e) :
    f.act.Errs env e := by
  cases f with
  | convert n target => exact convert_errs h
  | fail path expected =>
    cases h
    exact .fail s

theorem State.call_errs {record : RecordId} {place : Place} {path : Path}
    (h : s.call env record place path = .error e) : (Act.call record place path).Errs env e := by
  unfold call at h
  split at h
  · rename_i hnone
    cases h
    exact .missing hnone
  · rename_i check hsome
    dsimp only at h
    split at h
    · cases h
      exact .noSlot s
    · rcases bind_eq_error.1 h with hv | ⟨_, -, h⟩
      · exact .called s hsome hv
      · cases h

theorem foldlM_error {α β : Type _} {f : β → α → Except CheckError β} {as : List α} {b : β}
    (h : as.foldlM f b = .error e) : ∃ b a, f b a = .error e := by
  induction as generalizing b with
  | nil => cases h
  | cons a as ih =>
    rw [List.foldlM_cons] at h
    rcases bind_eq_error.1 h with h | ⟨b', -, h⟩
    · exact ⟨b, a, h⟩
    · exact ih h

mutual

/-- An error of a run comes from one of the acts of its statements. -/
theorem Stmt.run_errs (st : Stmt) {s : State} (h : st.run env s = .error e) :
    ∃ a ∈ st.acts, a.Errs env e := by
  cases st with
  | check branches otherwise =>
    obtain ⟨a, ha, he⟩ := runBranches_errs branches h
    exact ⟨a, by simpa [Stmt.acts, List.mem_append] using ha, he⟩
  | convert n target => exact ⟨_, List.mem_singleton_self _, State.convert_errs h⟩
  | forEach array depth body =>
    rw [Stmt.run] at h
    obtain ⟨s, i, h⟩ := foldlM_error h
    exact runAll_errs body h
  | call record place path => exact ⟨_, List.mem_singleton_self _, State.call_errs h⟩

theorem runAll_errs (stmts : List Stmt) {s : State} (h : runAll env stmts s = .error e) :
    ∃ a ∈ allActs stmts, a.Errs env e := by
  cases stmts with
  | nil =>
    rw [runAll] at h
    cases h
  | cons st stmts =>
    rw [runAll] at h
    rcases bind_eq_error.1 h with h | ⟨s', -, h⟩
    · obtain ⟨a, ha, he⟩ := st.run_errs h
      exact ⟨a, List.mem_append_left _ ha, he⟩
    · obtain ⟨a, ha, he⟩ := runAll_errs stmts h
      exact ⟨a, List.mem_append_right _ ha, he⟩

theorem runBranches_errs {otherwise : Fallback} (branches : List Branch) {s : State}
    (h : runBranches env otherwise branches s = .error e) :
    ∃ a ∈ branchActs branches ++ [otherwise.act], a.Errs env e := by
  cases branches with
  | nil =>
    rw [runBranches] at h
    exact ⟨otherwise.act, List.mem_singleton_self _, State.fallback_errs h⟩
  | cons b branches =>
    obtain ⟨label, test, body⟩ := b
    rw [runBranches] at h
    rw [branchActs, List.append_assoc]
    split_ifs at h
    · obtain ⟨a, ha, he⟩ := runAll_errs body h
      exact ⟨a, List.mem_append_left _ ha, he⟩
    · obtain ⟨a, ha, he⟩ := runBranches_errs branches h
      exact ⟨a, List.mem_append_right _ ha, he⟩

end

end

namespace Program

variable {p : Program} {ts : Transforms}

theorem mem_bodies_of_recordCheck? {record : RecordId} {c : RecordCheck}
    (h : p.recordCheck? record = some c) : c.body ∈ p.bodies :=
  List.mem_append_right _ (List.mem_map_of_mem (List.mem_filter.1 (List.mem_of_getLast? h)).1)

theorem mem_bodies_of_validator? {name : String} {v : Validator}
    (h : p.validator? name = some v) : v.body ∈ p.bodies :=
  List.mem_append_left _ (List.mem_map_of_mem (List.mem_of_find?_eq_some h))

section

variable {P : CheckError → Prop}

/-- What holds of all errors that acts of a program can end a run in, as long as it holds of those
of the record checks that they call, holds of all errors of its record checks. -/
theorem checkRecord_error (hdeep : P .tooDeep)
    (hacts : ∀ body ∈ p.bodies, ∀ a ∈ allActs body, ∀ env e, env.transforms = ts →
      (∀ record check given v e, env.check? record = some check → check given v = .error e →
        P e) → a.Errs env e → P e)
    {depth : Nat} {record : RecordId} {check : String → Value → Except CheckError Value}
    {given : String} {v : Value} {e : CheckError}
    (hc : p.checkRecord ts depth record = some check) (he : check given v = .error e) : P e := by
  induction depth generalizing record check given v e with
  | zero =>
    obtain ⟨c, -, rfl⟩ := Option.map_eq_some_iff.1 hc
    cases he
    exact hdeep
  | succ depth ih =>
    obtain ⟨c, hfind, rfl⟩ := Option.map_eq_some_iff.1 hc
    rcases bind_eq_error.1 he with hrun | ⟨_, -, h⟩
    · obtain ⟨a, ha, herr⟩ := runAll_errs c.body hrun
      exact hacts _ (mem_bodies_of_recordCheck? hfind) a ha _ e rfl
        (fun _ _ _ _ _ hc he => ih hc he) herr
    · cases h

/-- It holds of all errors of its validators, too. -/
theorem validate_error (hdeep : P .tooDeep) (hname : ∀ name, P (.unknownValidator name))
    (hacts : ∀ body ∈ p.bodies, ∀ a ∈ allActs body, ∀ env e, env.transforms = ts →
      (∀ record check given v e, env.check? record = some check → check given v = .error e →
        P e) → a.Errs env e → P e)
    {name : String} {v : Value} {e : CheckError} (he : p.validate ts name v = .error e) :
    P e := by
  unfold validate at he
  split at he
  · cases he
    exact hname name
  · rename_i validator hfind
    rcases bind_eq_error.1 he with hrun | ⟨_, -, h⟩
    · obtain ⟨a, ha, herr⟩ := runAll_errs validator.body hrun
      exact hacts _ (mem_bodies_of_validator? hfind) a ha _ e rfl
        (fun _ _ _ _ _ hc he => checkRecord_error hdeep hacts hc he) herr
    · cases h

end

end Program

end Conform
