import Conform.Proofs.Program.Looks

/-! Running a program as a script does. A script cannot read a field of what is no object, where
the evaluator reads on, and it reads the length of an array again before each round of a loop. It
does what the evaluator does if everything that the evaluator looks at is there. -/

namespace Conform

inductive Halt where
  | failed (e : CheckError)
  /-- Something on the way to a place is missing. -/
  | unguarded (place : Place)
  /-- A loop would go on after as many rounds as its array had items at first. -/
  | grown (array : Place)

/-- The value at a place, if the way to it is there. -/
def Place.fetch? (cs : Counters) (v : Value) : Place → Option Value
  | .param => some v
  | .field base name => (base.fetch? cs v).bind fun x =>
    if x.isComposite then some (x.get name) else none
  | .item base depth => (base.fetch? cs v).bind fun x =>
    match x, cs[depth]? with
    | .array items, some i => items[i]?
    | _, _ => none

def State.fetch (s : State) (p : Place) : Except Halt Value :=
  match p.fetch? s.counters s.value with
  | some v => .ok v
  | none => .error (.unguarded p)

/-- What a routine of a script runs in. -/
structure ScriptEnv where
  transforms : Transforms
  check? : RecordId → Option (String → Value → Except Halt Value)
  given : String

def ScriptEnv.bare (env : ScriptEnv) : Env := ⟨env.transforms, fun _ => none, env.given⟩

namespace State

def scriptFallback (s : State) (env : ScriptEnv) : Fallback → Except Halt State
  | .convert n target => do
    let _ ← s.fetch target
    (s.convert env.bare n target).mapError .failed
  | .fail path expected => (s.fallback env.bare (.fail path expected)).mapError .failed

def scriptCall (s : State) (env : ScriptEnv) (record : RecordId) (place : Place) (path : Path) :
    Except Halt State := do
  let _ ← s.fetch place
  match env.check? record with
  | none => .error (.failed (.missingCheck record))
  | some check =>
    let steps := place.steps s.counters
    match s.value.slot? steps with
    | none => .error (.failed (.noSlot (s.pathText env.bare path)))
    | some slot => do
      let w ← check (s.pathText env.bare path) slot
      return { s with value := Value.write w steps s.value }

end State

/-- The rounds of a loop over an array that had `length` items at first. -/
def scriptRounds (array : Place) (depth length : Nat) (body : State → Except Halt State) :
    List Nat → State → Except Halt State
  | [], s => do
    let a ← { s with counters := s.counters.put depth length }.fetch array
    if length < a.length then .error (.grown array) else .ok s
  | i :: is, s => do
    let t : State := { s with counters := s.counters.put depth i }
    let a ← t.fetch array
    if i < a.length then scriptRounds array depth length body is (← body t) else .ok s

mutual

def Stmt.script (env : ScriptEnv) : Stmt → State → Except Halt State
  | .check branches otherwise, s => scriptBranches env otherwise branches s
  | .convert n target, s => s.scriptFallback env (.convert n target)
  | .forEach array depth body, s => do
    let a ← s.fetch array
    scriptRounds array depth a.length (scriptAll env body) (List.range a.length)
      { s with counters := s.counters.reach depth }
  | .call record place path, s => s.scriptCall env record place path

def scriptAll (env : ScriptEnv) : List Stmt → State → Except Halt State
  | [], s => .ok s
  | stmt :: stmts, s => do scriptAll env stmts (← stmt.script env s)

def scriptBranches (env : ScriptEnv) (otherwise : Fallback) :
    List Branch → State → Except Halt State
  | [], s => s.scriptFallback env otherwise
  | .mk _ test body :: branches, s => do
    let _ ← s.fetch test.place
    if s.holds test then scriptAll env body s else scriptBranches env otherwise branches s

end

namespace Program

/-- A record check of a script with at most `depth` others under way inside it. -/
def scriptRecord (p : Program) (ts : Transforms) :
    Nat → RecordId → Option (String → Value → Except Halt Value)
  | 0, record => (p.recordCheck? record).map fun _ _ _ => .error (.failed .tooDeep)
  | depth + 1, record => (p.recordCheck? record).map fun check given v => do
    let s ← scriptAll ⟨ts, p.scriptRecord ts depth, given⟩ check.body ⟨v, []⟩
    return s.value

/-- Runs a validator of a script. -/
def script (p : Program) (ts : Transforms) (name : String) (v : Value) : Except Halt Value :=
  match p.validator? name with
  | none => .error (.failed (.unknownValidator name))
  | some validator => do
    let s ← scriptAll ⟨ts, p.scriptRecord ts (v.depth + spareDepth), ""⟩ validator.body ⟨v, []⟩
    return s.value

end Program

theorem Place.fetch?_of_guarded {cs : Counters} {v : Value} {p : Place} (h : p.Guarded cs v) :
    p.fetch? cs v = some (p.read cs v) := by
  induction p with
  | param => rfl
  | field base name ih =>
    rw [fetch?, ih h.1, Option.bind_some, if_pos h.2]
    rfl
  | item base depth ih =>
    obtain ⟨hbase, items, i, hread, hi, hlt⟩ := h
    simp [fetch?, ih hbase, hread, hi, read, Value.item, Counters.get, List.getElem?_eq_getElem hlt]

theorem State.fetch_of_guarded {s : State} {p : Place} (h : p.Guarded s.counters s.value) :
    s.fetch p = .ok (s.read p) := by
  rw [fetch, Place.fetch?_of_guarded h]
  rfl

/-- Whether a script makes no difference at a look. -/
def Look.Sound (l : Look) : Prop :=
  l.Guarded ∧ ∀ i n, l.deed = .round i n → l.seen.length = n

theorem mapError_bind {ε ε' α β : Type _} {x : Except ε α} {f : α → Except ε β} {g : ε → ε'} :
    (x >>= f).mapError g = x.mapError g >>= fun a => (f a).mapError g := by
  cases x <;> rfl

/-- Whether record checks of a script do what those of the evaluator do, where `check` gives the
looks of those. -/
structure Scripts (env : Env) (check : RecordId → String → Value → List Look)
    (env' : ScriptEnv) : Prop where
  transforms : env'.transforms = env.transforms
  given : env'.given = env.given
  none : ∀ r, env.check? r = none → env'.check? r = none
  some : ∀ r c, env.check? r = some c → ∃ c', env'.check? r = some c' ∧
    ∀ given v, (∀ l ∈ check r given v, l.Sound) → c' given v = (c given v).mapError .failed

section

variable {env : Env} {check : RecordId → String → Value → List Look} {env' : ScriptEnv}

theorem Scripts.convert (h : Scripts env check env') (s : State) (n : ConversionId) (p : Place) :
    s.convert env'.bare n p = s.convert env n p := by
  simp only [State.convert, ScriptEnv.bare, h.transforms]

theorem Scripts.pathText (h : Scripts env check env') (s : State) (path : Path) :
    s.pathText env'.bare path = s.pathText env path := by
  simp only [State.pathText, ScriptEnv.bare, h.given]

theorem Scripts.fallback (h : Scripts env check env') {s : State} {f : Fallback}
    (hl : ∀ l ∈ f.looks s, l.Sound) :
    s.scriptFallback env' f = (s.fallback env f).mapError .failed := by
  cases f with
  | convert n target =>
    have hg : target.Guarded s.counters s.value := (hl _ (List.mem_singleton_self _)).1
    rw [State.scriptFallback, State.fetch_of_guarded hg, h.convert]
    rfl
  | fail path expected =>
    rw [State.scriptFallback, State.fallback, State.fallback, h.pathText]

theorem Scripts.call (h : Scripts env check env') {s : State} {record : RecordId} {place : Place}
    {path : Path} (hl : ∀ l ∈ s.callLooks env check record place path, l.Sound) :
    s.scriptCall env' record place path = (s.call env record place path).mapError .failed := by
  have hg : place.Guarded s.counters s.value := (hl _ List.mem_cons_self).1
  rw [State.scriptCall, State.fetch_of_guarded hg, State.call, h.pathText]
  cases hc : env.check? record with
  | none =>
    rw [h.none record hc]
    rfl
  | some c =>
    obtain ⟨c', hc', hsame⟩ := h.some record c hc
    rw [hc']
    rw [State.callLooks] at hl
    dsimp only [bind, Except.bind]
    cases hslot : s.value.slot? (place.steps s.counters) with
    | none => rfl
    | some slot =>
      rw [hslot] at hl
      have hinner : ∀ l ∈ check record (s.pathText env path) slot, l.Sound :=
        fun l hm => (List.forall_mem_map.1 (List.forall_mem_cons.1 hl).2) l hm
      dsimp only
      rw [hsame _ _ hinner]
      cases c (s.pathText env path) slot <;> rfl

theorem scriptRounds_eq {array : Place} {depth length : Nat} {looks : State → List Look}
    {run : State → Except CheckError State} {script : State → Except Halt State}
    (hbody : ∀ t, (∀ l ∈ looks t, l.Sound) → script t = (run t).mapError .failed)
    {is : List Nat} (his : ∀ i ∈ is, i < length) {s : State}
    (hl : ∀ l ∈ roundLooks array depth length looks run is s, l.Sound) :
    scriptRounds array depth length script is s =
      (is.foldlM (fun s i => run { s with counters := s.counters.put depth i }) s).mapError
        .failed := by
  induction is generalizing s with
  | nil =>
    -- the length is read once more, and the counter has reached it
    obtain ⟨hg, hlen⟩ := hl _ (List.mem_singleton_self _)
    have hg : array.Guarded (s.counters.put depth length) s.value := hg
    rw [scriptRounds, State.fetch_of_guarded hg]
    have hlen : (array.read (s.counters.put depth length) s.value).length = length :=
      hlen length length rfl
    simp [bind, Except.bind, State.read, hlen, pure, Except.pure, Except.mapError]
  | cons i is ih =>
    rw [roundLooks, List.cons_append] at hl
    obtain ⟨⟨hg, hlen⟩, hl⟩ := List.forall_mem_cons.1 hl
    obtain ⟨hround, hrest⟩ := List.forall_mem_append.1 hl
    set t : State := { s with counters := s.counters.put depth i } with ht
    have hg : array.Guarded t.counters t.value := hg
    have hlen : (t.read array).length = length := hlen i length rfl
    rw [scriptRounds, State.fetch_of_guarded hg, List.foldlM_cons, mapError_bind]
    simp only [bind, Except.bind, hlen, his i (by simp), if_true, ← ht, hbody t hround]
    cases hrun : run t with
    | error e => rfl
    | ok u =>
      rw [hrun] at hrest
      exact ih (fun j hj => his j (by simp [hj])) hrest

mutual

/-- A script does what the evaluator does if all looks of that are sound. -/
theorem Stmt.script_eq (h : Scripts env check env') (stmt : Stmt) (s : State)
    (hl : ∀ l ∈ stmt.looks env check s, l.Sound) :
    stmt.script env' s = (stmt.run env s).mapError .failed := by
  cases stmt with
  | check branches otherwise => exact scriptBranches_eq h otherwise branches s hl
  | convert n target => exact h.fallback (f := .convert n target) hl
  | forEach array depth body =>
    obtain ⟨⟨hg, -⟩, hl⟩ := List.forall_mem_cons.1 hl
    have hg : array.Guarded s.counters s.value := hg
    rw [Stmt.script, State.fetch_of_guarded hg]
    exact scriptRounds_eq (fun t => scriptAll_eq h body t) (fun i hi => List.mem_range.1 hi)
      fun l hm => (List.forall_mem_map.1 hl) l hm
  | call record place path => exact h.call hl

theorem scriptAll_eq (h : Scripts env check env') (stmts : List Stmt) (s : State)
    (hl : ∀ l ∈ allLooks env check stmts s, l.Sound) :
    scriptAll env' stmts s = (runAll env stmts s).mapError .failed := by
  cases stmts with
  | nil => rfl
  | cons stmt stmts =>
    rw [allLooks] at hl
    obtain ⟨hstmt, hrest⟩ := List.forall_mem_append.1 hl
    rw [scriptAll, runAll, mapError_bind, Stmt.script_eq h stmt s hstmt]
    cases hrun : stmt.run env s with
    | error e => rfl
    | ok t =>
      rw [hrun] at hrest
      exact scriptAll_eq h stmts t hrest

theorem scriptBranches_eq (h : Scripts env check env') (otherwise : Fallback)
    (branches : List Branch) (s : State)
    (hl : ∀ l ∈ branchLooks env check otherwise branches s, l.Sound) :
    scriptBranches env' otherwise branches s =
      (runBranches env otherwise branches s).mapError .failed := by
  match branches with
  | [] => exact h.fallback hl
  | .mk _ test body :: branches =>
    rw [branchLooks] at hl
    obtain ⟨⟨hg, -⟩, hl⟩ := List.forall_mem_cons.1 hl
    have hg : test.place.Guarded s.counters s.value := hg
    rw [scriptBranches, runBranches, State.fetch_of_guarded hg]
    cases hholds : s.holds test with
    | true =>
      rw [hholds] at hl
      exact scriptAll_eq h body s hl
    | false =>
      rw [hholds] at hl
      exact scriptBranches_eq h otherwise branches s hl

end

end

namespace Program

variable {p : Program} {ts : Transforms}

/-- The record checks of a script do what those of the evaluator do, by induction on how many may
be under way. -/
theorem scripts (p : Program) (ts : Transforms) (n : Nat) (given : String) :
    Scripts ⟨ts, p.checkRecord ts n, given⟩ (p.recordLooks ts n)
      ⟨ts, p.scriptRecord ts n, given⟩ := by
  induction n generalizing given with
  | zero =>
    refine ⟨rfl, rfl, fun r hr => ?_, fun r c hc => ?_⟩
    · have hr : (p.recordCheck? r).map _ = none := hr
      simpa [scriptRecord] using hr
    · obtain ⟨check, hcheck, rfl⟩ := Option.map_eq_some_iff.1 hc
      exact ⟨_, Option.map_eq_some_iff.2 ⟨check, hcheck, rfl⟩, fun _ _ _ => rfl⟩
  | succ n ih =>
    refine ⟨rfl, rfl, fun r hr => ?_, fun r c hc => ?_⟩
    · have hr : (p.recordCheck? r).map _ = none := hr
      simpa [scriptRecord] using hr
    · obtain ⟨check, hcheck, rfl⟩ := Option.map_eq_some_iff.1 hc
      refine ⟨_, Option.map_eq_some_iff.2 ⟨check, hcheck, rfl⟩, fun given v hl => ?_⟩
      simp only [recordLooks, hcheck] at hl
      rw [mapError_bind, scriptAll_eq (ih given) check.body _ hl]
      rfl

theorem script_eq {name : String} {v : Value} (hl : ∀ l ∈ p.looks ts name v, l.Sound) :
    p.script ts name v = (p.validate ts name v).mapError .failed := by
  unfold script validate
  unfold looks at hl
  cases hf : p.validator? name with
  | none => rfl
  | some u =>
    rw [hf] at hl
    dsimp only
    rw [mapError_bind, scriptAll_eq (p.scripts ts _ "") u.body _ hl]
    rfl

end Program

end Conform
