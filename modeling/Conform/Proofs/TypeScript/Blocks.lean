import Conform.Proofs.TypeScript.Lines

/-! The text of statements says what a run of them does. It is read line by line: each statement
begins with a line that says what it is, and its blocks end where a line stands further to the
left. -/

namespace Conform.TypeScript

variable {depth : Nat}

/-! ### Lines and indentations -/

theorem line_append_inj {s t rest rest' : String} (hs : OneLine s) (ht : OneLine t)
    (h : line depth s ++ rest = line depth t ++ rest') : s = t ∧ rest = rest' := by
  simp only [line, String.append_assoc, String.append_right_inj] at h
  have hone {s : String} (hs : OneLine s) : ∀ c ∈ s.toList, (c ≠ '\n' : Bool) := fun c hc => by
    simpa using ne_of_mem_of_not_mem hc hs
  have hends (cs : List Char) : Text.Ends (· ≠ '\n') ("\n".toList ++ cs) :=
    Text.ends_cons (by decide) cs
  have h := congrArg String.toList h
  simp only [String.toList_append] at h
  obtain ⟨hline, hrest⟩ := Text.run_append_inj (hone hs) (hone ht) (hends _) (hends _) h
  exact ⟨String.toList_injective hline, String.toList_injective (List.append_cancel_left hrest)⟩

theorem indent_succ (depth : Nat) : indent (depth + 1) = indent depth ++ "    " := by
  rw [indent, List.replicate_succ', String.join_append, indent]
  rfl

/-! ### Runs -/

variable {env : Env}

theorem SameRun.bind {f f' g g' : State → Except CheckError State} (hf : SameRun f f')
    (hg : SameRun g g') : SameRun (fun s => f s >>= g) (fun s => f' s >>= g') := by
  intro s
  have h := hf s
  simp only
  cases hfs : f s with
  | error e => cases hfs' : f' s with
    | error e' =>
      rw [hfs, hfs'] at h
      exact h
    | ok t =>
      rw [hfs, hfs'] at h
      cases h
  | ok t => cases hfs' : f' s with
    | error e =>
      rw [hfs, hfs'] at h
      cases h
    | ok t' =>
      rw [hfs, hfs'] at h
      cases h
      exact hg t

theorem SameRun.foldlM {f g : Nat → State → Except CheckError State} (h : ∀ i, SameRun (f i) (g i))
    (is : List Nat) : SameRun (fun s => is.foldlM (fun s i => f i s) s)
      (fun s => is.foldlM (fun s i => g i s) s) := by
  induction is with
  | nil => exact .of_eq fun _ => rfl
  | cons i is ih => exact (h i).bind ih

theorem SameRun.cons {x y : Stmt} {xs ys : List Stmt} (h : SameRun (x.run env) (y.run env))
    (hs : SameRun (runAll env xs) (runAll env ys)) :
    SameRun (runAll env (x :: xs)) (runAll env (y :: ys)) := h.bind hs

theorem SameRun.forEach {xs ys : List Stmt} (h : SameRun (runAll env xs) (runAll env ys))
    (array : Place) (counter : Nat) :
    SameRun ((Stmt.forEach array counter xs).run env)
      ((Stmt.forEach array counter ys).run env) := fun _ =>
  SameRun.foldlM (f := fun i s => runAll env xs { s with counters := s.counters.put counter i })
    (g := fun i s => runAll env ys { s with counters := s.counters.put counter i })
    (fun _ _ => h _) _ _

/-- Whether branches do the same over fallbacks that do. -/
def SameBranches (env : Env) (bs cs : List Branch) : Prop :=
  ∀ f g, SameRun (State.fallback · env f) (State.fallback · env g) →
    SameRun (runBranches env f bs) (runBranches env g cs)

theorem SameBranches.nil : SameBranches env [] [] := fun _ _ h => h

theorem SameBranches.cons {label label' : String} {t u : Test} {xs ys : List Stmt}
    {bs cs : List Branch} (ht : test t = test u) (hbody : SameRun (runAll env xs) (runAll env ys))
    (hrest : SameBranches env bs cs) :
    SameBranches env (.mk label t xs :: bs) (.mk label' u ys :: cs) := fun f g hfallback s => by
  simp only [runBranches, holds_of_test_eq ht s]
  split
  · exact hbody s
  · exact hrest f g hfallback s

/-! ### First lines -/

/-- How the first line of a branch ends: a branch without statements is closed right away. -/
def opening : List Stmt → String
  | [] => openBrace ++ " " ++ closeBrace
  | _ => openBrace

def inside (depth : Nat) : List Stmt → String
  | [] => ""
  | s :: ss => block (depth + 1) (s :: ss) ++ line depth closeBrace

def branchHead (keyword : String) (t : Test) (body : List Stmt) : String :=
  keyword ++ (" (" ++ (test t ++ (") " ++ opening body)))

theorem branches_nil (keyword : String) : branches depth keyword [] = "" := by rw [branches]

theorem branches_cons (keyword label : String) (t : Test) (body : List Stmt) (bs : List Branch) :
    branches depth keyword (.mk label t body :: bs) =
      line depth (branchHead keyword t body) ++
        (inside depth body ++ branches depth "else if" bs) := by
  cases body <;> simp only [branches, branchHead, opening, inside, block, String.append_assoc,
    String.empty_append]

theorem plain_opening (body : List Stmt) : Plain (opening body) := by
  cases body
  · exact (by decide : Plain (openBrace ++ " " ++ closeBrace))
  · exact (by decide : Plain openBrace)

theorem plain_branchHead {keyword : String} (h : Plain keyword) (t : Test) (body : List Stmt) :
    Plain (branchHead keyword t body) := by
  simp only [branchHead, plain_append, h, plain_test, plain_opening, and_true, true_and]
  decide

theorem branchHead_inj {keyword : String} {t u : Test} {xs ys : List Stmt}
    (h : branchHead keyword t xs = branchHead keyword u ys) :
    test t = test u ∧ (xs = [] ↔ ys = []) := by
  simp only [branchHead, String.append_right_inj] at h
  have hlast := congrArg (fun s => s.toList.getLast?) h
  cases xs <;> cases ys
  case nil.nil => exact ⟨(String.append_left_inj _).1 h, Iff.rfl⟩
  case nil.cons => simp [opening, openBrace, closeBrace] at hlast
  case cons.nil => simp [opening, openBrace, closeBrace] at hlast
  case cons.cons => exact ⟨(String.append_left_inj _).1 h, by simp⟩

def lead : Stmt → Char
  | .check [] _ => 'e'
  | .check _ _ => 'i'
  | .convert _ _ => 'v'
  | .forEach _ _ _ => 'f'
  | .call _ _ _ => '_'

theorem exists_stmt_eq (depth : Nat) (x : Stmt) : ∃ s more, stmt depth x = line depth s ++ more ∧
    OneLine s ∧ s.toList.head? = some (lead x) := by
  cases x with
  | check bs f => cases bs with
    | nil =>
      refine ⟨"else", line (depth + 1) (fallback f), ?_, by decide, by simp [lead]⟩
      simp only [stmt, branches, String.empty_append]
    | cons b bs =>
      obtain ⟨label, t, body⟩ := b
      refine ⟨branchHead "if" t body, inside depth body ++ branches depth "else if" bs ++
        line depth "else" ++ line (depth + 1) (fallback f), ?_,
        (plain_branchHead (by decide) t body).oneLine, ?_⟩
      · simp only [stmt, branches_cons, String.append_assoc]
      · simp [branchHead, lead]
  | convert n p =>
    refine ⟨convert n p, "", String.append_empty.symm, (plain_convert n p).oneLine, ?_⟩
    simp only [convert, String.append_assoc]
    exact head?_place_append p _
  | forEach array counter body =>
    refine ⟨loopHead array counter, block (depth + 1) body ++ line depth closeBrace, ?_,
      (plain_loopHead array counter).oneLine, ?_⟩
    · rw [stmt, String.append_assoc]
    · unfold loopHead
      simp [lead]
  | call n p a =>
    refine ⟨_, "", String.append_empty.symm, (plain_call n p a).oneLine, ?_⟩
    unfold checkName
    simp [lead]

/-- Statements with the same text are of the same kind. -/
theorem lead_eq {x y : Stmt} {rest rest' : String}
    (h : stmt depth x ++ rest = stmt depth y ++ rest') : lead x = lead y := by
  obtain ⟨s, more, hx, hs, hlead⟩ := exists_stmt_eq depth x
  obtain ⟨t, more', hy, ht, hlead'⟩ := exists_stmt_eq depth y
  rw [hx, hy, String.append_assoc, String.append_assoc] at h
  rw [(line_append_inj hs ht h).1, hlead'] at hlead
  exact (Option.some.inj hlead).symm

/-! ### Blocks -/

/-- Whether a block of a depth ends in front of a text: no statement begins there. -/
def Closes (depth : Nat) (rest : String) : Prop :=
  ∀ x more, stmt depth x ++ more ≠ rest

theorem closes_empty : Closes depth "" := fun x more h => by
  obtain ⟨s, rest, hx, -⟩ := exists_stmt_eq depth x
  simp [hx, line] at h

theorem closes_closeBrace (rest : String) : Closes (depth + 1) (line depth closeBrace ++ rest) :=
    fun x more h => by
  obtain ⟨s, text, hx, -⟩ := exists_stmt_eq (depth + 1) x
  simp only [hx, line, indent_succ, String.append_assoc, String.append_right_inj] at h
  have hhead := congrArg (fun s => s.toList.head?) h
  simp [closeBrace] at hhead

theorem inside_append (body : List Stmt) (rest : String) (h : body ≠ []) :
    inside depth body ++ rest = block (depth + 1) body ++ (line depth closeBrace ++ rest) := by
  obtain ⟨s, ss, rfl⟩ := List.exists_cons_of_ne_nil h
  rw [inside, String.append_assoc]

mutual

/-- The text of a statement says where it ends, and what a run of it does. -/
theorem stmt_append_sameRun (env : Env) (x : Stmt) {y : Stmt} {depth : Nat} {rest rest' : String}
    (h : stmt depth x ++ rest = stmt depth y ++ rest') :
    SameRun (x.run env) (y.run env) ∧ rest = rest' := by
  -- statements of different forms begin with different characters
  have hlead := lead_eq h
  cases x with
  | check bs f =>
    cases y with
    | check cs g =>
      simp only [stmt, String.append_assoc] at h
      obtain ⟨hbranches, htail⟩ := branches_append_sameRun env bs (by decide)
        (fun s hs => by simpa using congrArg (fun s => s.toList.head?) hs) h
      obtain ⟨hfallback, hrest⟩ := line_append_inj (plain_fallback f).oneLine
        (plain_fallback g).oneLine htail
      exact ⟨hbranches f g (sameRun_fallback hfallback env), hrest⟩
    | _ => cases bs <;> cases hlead
  | convert n p =>
    cases y with
    | convert m q =>
      obtain ⟨hline, hrest⟩ := line_append_inj (plain_convert n p).oneLine
        (plain_convert m q).oneLine h
      obtain ⟨rfl, rfl⟩ := convert_inj hline
      exact ⟨.of_eq fun _ => rfl, hrest⟩
    | check cs g => cases cs <;> cases hlead
    | _ => cases hlead
  | forEach a counter body =>
    cases y with
    | forEach b counter' body' =>
      simp only [stmt, String.append_assoc] at h
      obtain ⟨hline, hblock⟩ := line_append_inj (plain_loopHead a counter).oneLine
        (plain_loopHead b counter').oneLine h
      obtain ⟨rfl, rfl⟩ := loopHead_inj hline
      obtain ⟨hbody, hclose⟩ := block_append_sameRun env body (closes_closeBrace rest)
        (closes_closeBrace rest') hblock
      exact ⟨hbody.forEach a counter, (String.append_right_inj _).1 hclose⟩
    | check cs g => cases cs <;> cases hlead
    | _ => cases hlead
  | call n p a =>
    cases y with
    | call m q b =>
      obtain ⟨hline, hrest⟩ := line_append_inj (plain_call n p a).oneLine
        (plain_call m q b).oneLine h
      obtain ⟨rfl, rfl, hpath⟩ := call_inj hline
      refine ⟨.of_eq fun s => ?_, hrest⟩
      simp only [Stmt.run, State.call, State.pathText, eval_eq_of_path_eq hpath]
    | check cs g => cases cs <;> cases hlead
    | _ => cases hlead

theorem block_append_sameRun (env : Env) (xs : List Stmt) {ys : List Stmt} {depth : Nat}
    {rest rest' : String} (hrest : Closes depth rest) (hrest' : Closes depth rest')
    (h : block depth xs ++ rest = block depth ys ++ rest') :
    SameRun (runAll env xs) (runAll env ys) ∧ rest = rest' := by
  cases xs with
  | nil => cases ys with
    | nil => exact ⟨.of_eq fun _ => rfl, by simpa [block] using h⟩
    | cons y ys =>
      simp only [block, String.empty_append, String.append_assoc] at h
      exact (hrest y _ h.symm).elim
  | cons x xs => cases ys with
    | nil =>
      simp only [block, String.empty_append, String.append_assoc] at h
      exact (hrest' x _ h).elim
    | cons y ys =>
      simp only [block, String.append_assoc] at h
      obtain ⟨hx, htail⟩ := stmt_append_sameRun env x h
      obtain ⟨hxs, hrest⟩ := block_append_sameRun env xs hrest hrest' htail
      exact ⟨hx.cons hxs, hrest⟩

theorem branches_append_sameRun (env : Env) (bs : List Branch) {cs : List Branch} {depth : Nat}
    {keyword rest rest' : String} (hplain : Plain keyword) (hkey : ∀ s, keyword ++ s ≠ "else")
    (h : branches depth keyword bs ++ (line depth "else" ++ rest) =
      branches depth keyword cs ++ (line depth "else" ++ rest')) :
    SameBranches env bs cs ∧ rest = rest' := by
  have helse {t : Test} {body : List Stmt} {more more' : String} :
      line depth "else" ++ more ≠ line depth (branchHead keyword t body) ++ more' := fun h =>
    hkey _ (line_append_inj (by decide) (plain_branchHead hplain t body).oneLine h).1.symm
  cases bs with
  | nil => cases cs with
    | nil => exact ⟨SameBranches.nil, by simpa [branches] using h⟩
    | cons c cs =>
      obtain ⟨label, u, ys⟩ := c
      simp only [branches_nil, branches_cons, String.empty_append, String.append_assoc] at h
      exact (helse h).elim
  | cons b bs => cases cs with
    | nil =>
      obtain ⟨label, t, xs⟩ := b
      simp only [branches_nil, branches_cons, String.empty_append, String.append_assoc] at h
      exact (helse h.symm).elim
    | cons c cs =>
      obtain ⟨label, t, xs⟩ := b
      obtain ⟨label', u, ys⟩ := c
      simp only [branches_cons, String.append_assoc] at h
      obtain ⟨hhead, htail⟩ := line_append_inj (plain_branchHead hplain t xs).oneLine
        (plain_branchHead hplain u ys).oneLine h
      obtain ⟨ht, hempty⟩ := branchHead_inj hhead
      have hkey' (s : String) : "else if" ++ s ≠ "else" := fun hs => by
        simpa using congrArg (fun s => s.toList.length) hs
      by_cases hxs : xs = []
      · obtain rfl := hxs
        obtain rfl := hempty.1 rfl
        simp only [inside, String.empty_append] at htail
        obtain ⟨hbs, hrest⟩ := branches_append_sameRun env bs (by decide) hkey' htail
        exact ⟨hbs.cons ht (.of_eq fun _ => rfl), hrest⟩
      · rw [inside_append xs _ hxs, inside_append ys _ (hempty.not.1 hxs)] at htail
        obtain ⟨hbody, hclose⟩ := block_append_sameRun env xs (closes_closeBrace _)
          (closes_closeBrace _) htail
        obtain ⟨hbs, hrest⟩ := branches_append_sameRun env bs (by decide) hkey'
          ((String.append_right_inj _).1 hclose)
        exact ⟨hbs.cons ht hbody, hrest⟩

end

/-- Statements with the same text at the same depth do the same: they give the same value, or fail
with the same message. -/
theorem runAll_of_block_eq (depth : Nat) (xs ys : List Stmt) (env : Env) (s : State)
    (h : block depth xs = block depth ys) :
    (runAll env xs s).mapError CheckError.message =
      (runAll env ys s).mapError CheckError.message := by
  have h : block depth xs ++ "" = block depth ys ++ "" := by rw [h]
  exact (block_append_sameRun env xs closes_empty closes_empty h).1 s

/-- A check that all items of an array are zero or one. -/
def switches : List Stmt :=
  [.check [.mk "Array" (.isArray .param)
    [.forEach .param 0
      [.check [.mk "0" (.equals (.item .param 0) (.number (.finite false 0))) [],
          .mk "1" (.equals (.item .param 0) (.bigint 1)) []]
        (.fail (.append (.append (.append (.text "value") (.text "[")) (.counter 0)) (.text "]"))
          ["0", "1n"])]]]
    (.fail (.text "value") ["Array"])]

/-- The same with other labels, a negative zero, and texts that are put together otherwise. -/
def otherSwitches : List Stmt :=
  [.check [.mk "List" (.isArray .param)
    [.forEach .param 0
      [.check [.mk "off" (.equals (.item .param 0) (.number (.finite true 0))) [],
          .mk "on" (.equals (.item .param 0) (.bigint 1)) []]
        (.fail (.append (.text "value[") (.append (.counter 0) (.text "]"))) ["0 | 1n"])]]]
    (.fail (.text "value") ["Array"])]

theorem runAll_of_block_eq_switches :
    let s : State := ⟨.array [.bigint 1, .number .zero, .string "on"], []⟩
    let env : Env := ⟨.empty, fun _ => none, ""⟩
    block 1 switches = block 1 otherSwitches ∧
      (runAll env switches s).mapError CheckError.message =
        (runAll env otherSwitches s).mapError CheckError.message ∧
      (runAll env switches s).mapError CheckError.message =
        .error "value[2] is not 0 | 1n." := by
  have htext : block 1 switches = block 1 otherSwitches := by decide +kernel
  exact ⟨htext, runAll_of_block_eq 1 _ _ _ _ htext, by rfl⟩

end Conform.TypeScript
