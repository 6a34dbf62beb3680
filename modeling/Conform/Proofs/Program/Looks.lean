import Mathlib.Data.List.Infix
import Conform.Program.Run
import Conform.Proofs.Program.Slots

/-! What a run looks at, in order. Every time that a place is evaluated the run looks at a value:
for a test, at the head of a loop, for the call of a record check and for a conversion. A script
reads the length of an array again before each round of a loop and after the last one, and those
are looks too. The states in between are those of the run itself. -/

namespace Conform

/-- What the value at a place is looked at for. -/
inductive Deed where
  | test (t : Test)
  /-- For the length of an array, when a loop over it begins. -/
  | loop
  /-- For the length of the array again, to be compared with the counter. It was `length` when the
  loop began. -/
  | round (counter length : Nat)
  | call (record : RecordId)
  | convert (conversion : ConversionId)

namespace Deed

def isRound : Deed → Bool
  | .round _ _ => true
  | _ => false

def isConvert : Deed → Bool
  | .convert _ => true
  | _ => false

end Deed

/-- An array that is looped over, by the steps to it, and the length that it began with. -/
structure Loop where
  steps : List Step
  length : Nat

structure Look where
  deed : Deed
  place : Place
  /-- The state of the routine that evaluates the place. -/
  state : State
  /-- The steps from the value that is validated to the value of the routine. -/
  base : List Step
  /-- What has become of the value that is validated. -/
  whole : Value
  /-- How many record checks are under way, with the one that is called. -/
  calls : Nat
  /-- The loops that are under way. -/
  loops : List Loop

/-- Whether all that is read on the way to a place is there: fields are read of arrays and objects
only, and items of arrays that are long enough. -/
def Place.Guarded (cs : Counters) (v : Value) : Place → Prop
  | .param => True
  | .field base _ => base.Guarded cs v ∧ (base.read cs v).isComposite
  | .item base depth => base.Guarded cs v ∧
      ∃ items i, base.read cs v = .array items ∧ cs[depth]? = some i ∧ i < items.length

/-- What is found along steps, undefined where they lead nowhere. -/
def Value.along : Value → List Step → Value
  | v, [] => v
  | v, .field name :: steps => (v.get name).along steps
  | v, .item index :: steps => (v.item (index.getD 0)).along steps

def Test.place : Test → Place
  | .hasTag p _ | .isObject p | .isNull p | .equals p _ | .isArray p => p

def State.look (s : State) (deed : Deed) (place : Place) : Look :=
  ⟨deed, place, s, [], s.value, 0, []⟩

namespace Look

def seen (l : Look) : Value := l.state.read l.place

def steps (l : Look) : List Step := l.base ++ l.place.steps l.state.counters

def Guarded (l : Look) : Prop := l.place.Guarded l.state.counters l.state.value

def inside (s : State) (steps : List Step) (l : Look) : Look :=
  { l with
    base := steps ++ l.base
    whole := Value.write l.whole steps s.value
    calls := l.calls + 1
    loops := l.loops.map fun loop => { loop with steps := steps ++ loop.steps } }

def within (loop : Loop) (l : Look) : Look := { l with loops := loop :: l.loops }

/-- Whether a look comes right behind a test for objects and arrays of the value at the same place,
made in the same state. -/
def Tested (l : Look) (ls : List Look) : Prop :=
  ∃ t, [t, l] <:+: ls ∧ t.deed = .test (.isObject l.place) ∧ t.state = l.state ∧ t.base = l.base

/-- Whether a look leaves alone what an earlier one put into a place by a conversion: it is neither
there nor further on, and at what is around the place only for the length of an array. -/
def Spares (l l' : Look) : Prop :=
  l.deed.isConvert → ¬ l.steps <+: l'.steps ∧ (l'.steps <+: l.steps → l'.deed.isRound)

end Look

/-- The looks of the rounds of a loop with these counters, where `body` gives those of one round. -/
def roundLooks (array : Place) (depth length : Nat) (body : State → List Look)
    (run : State → Except CheckError State) : List Nat → State → List Look
  | [], s => [{ s with counters := s.counters.put depth length }.look (.round length length) array]
  | i :: is, s =>
    let t : State := { s with counters := s.counters.put depth i }
    t.look (.round i length) array :: body t ++ match run t with
      | .ok s => roundLooks array depth length body run is s
      | .error _ => []

def Fallback.looks (s : State) : Fallback → List Look
  | .convert n target => [s.look (.convert n) target]
  | .fail _ _ => []

section

variable (env : Env) (check : RecordId → String → Value → List Look)

def State.callLooks (s : State) (record : RecordId) (place : Place) (path : Path) : List Look :=
  { s.look (.call record) place with calls := 1 } ::
    match s.value.slot? (place.steps s.counters) with
    | none => []
    | some slot => (check record (s.pathText env path) slot).map
        (·.inside s (place.steps s.counters))

mutual

def Stmt.looks : Stmt → State → List Look
  | .check branches otherwise, s => branchLooks otherwise branches s
  | .convert n target, s => [s.look (.convert n) target]
  | .forEach array depth body, s =>
    let length := (s.read array).length
    s.look .loop array ::
      (roundLooks array depth length (allLooks body) (runAll env body) (List.range length)
        { s with counters := s.counters.reach depth }).map
          (·.within ⟨array.steps s.counters, length⟩)
  | .call record place path, s => s.callLooks env check record place path

/-- The looks of statements up to the first that fails. -/
def allLooks : List Stmt → State → List Look
  | [], _ => []
  | stmt :: stmts, s => stmt.looks s ++ match stmt.run env s with
    | .ok t => allLooks stmts t
    | .error _ => []

def branchLooks (otherwise : Fallback) : List Branch → State → List Look
  | [], s => otherwise.looks s
  | .mk _ test body :: branches, s => s.look (.test test) test.place ::
      if s.holds test then allLooks body s else branchLooks otherwise branches s

end

end

namespace Program

/-- The looks of a record check with at most `depth` others under way inside it. -/
def recordLooks (p : Program) (ts : Transforms) : Nat → RecordId → String → Value → List Look
  | 0, _, _, _ => []
  | depth + 1, record, given, v => match p.recordCheck? record with
    | none => []
    | some check => allLooks ⟨ts, p.checkRecord ts depth, given⟩ (p.recordLooks ts depth)
        check.body ⟨v, []⟩

def looks (p : Program) (ts : Transforms) (name : String) (v : Value) : List Look :=
  match p.validator? name with
  | none => []
  | some validator =>
    allLooks ⟨ts, p.checkRecord ts (v.depth + spareDepth), ""⟩
      (p.recordLooks ts (v.depth + spareDepth)) validator.body ⟨v, []⟩

end Program

theorem Place.guarded_of_slot? {cs : Counters} {p : Place} {v u : Value}
    (h : v.slot? (p.steps cs) = some u) : p.Guarded cs v := by
  induction p generalizing u with
  | param => trivial
  | field base name ih =>
    rw [steps, Value.slot?_append, Option.bind_eq_some_iff] at h
    obtain ⟨x, hx, hu⟩ := h
    obtain ⟨fields, y, rfl, -, -⟩ := Value.slot?_field.1 hu
    exact ⟨ih hx, by rw [read_of_slot? hx]; rfl⟩
  | item base depth ih =>
    rw [steps, Value.slot?_append, Option.bind_eq_some_iff] at h
    obtain ⟨x, hx, hu⟩ := h
    obtain ⟨items, i, y, rfl, hi, hy, -⟩ := Value.slot?_item.1 hu
    exact ⟨ih hx, items, i, read_of_slot? hx, hi, (List.getElem?_eq_some_iff.1 hy).1⟩

namespace Look

variable {ls ls' : List Look} {l : Look}

theorem steps_inside (s : State) (steps : List Step) (l : Look) :
    (l.inside s steps).steps = steps ++ l.steps := List.append_assoc _ _ _

theorem Tested.mono (h : l.Tested ls) (hls : ls <:+: ls') : l.Tested ls' := by
  obtain ⟨t, ht, hrest⟩ := h
  exact ⟨t, ht.trans hls, hrest⟩

theorem Tested.cons {x : Look} (h : l.Tested ls) : l.Tested (x :: ls) :=
  h.mono (List.suffix_cons x ls).isInfix

theorem Tested.within {loop : Loop} (h : l.Tested ls) :
    (l.within loop).Tested (ls.map (·.within loop)) := by
  obtain ⟨t, ht, hdeed, hstate, hbase⟩ := h
  exact ⟨t.within loop, ht.map (Look.within loop), hdeed, hstate, hbase⟩

theorem Tested.inside {s : State} {steps : List Step} (h : l.Tested ls) :
    (l.inside s steps).Tested (ls.map (·.inside s steps)) := by
  obtain ⟨t, ht, hdeed, hstate, hbase⟩ := h
  exact ⟨t.inside s steps, ht.map (Look.inside s steps), hdeed, hstate,
    congrArg (steps ++ ·) hbase⟩

end Look

section

variable {env : Env} {check : RecordId → String → Value → List Look} {s : State}

theorem allLooks_singleton (stmt : Stmt) :
    allLooks env check [stmt] s = stmt.looks env check s := by
  simp only [allLooks]
  cases stmt.run env s <;> simp

theorem allLooks_append (xs ys : List Stmt) :
    allLooks env check (xs ++ ys) s = allLooks env check xs s ++ match runAll env xs s with
      | .ok t => allLooks env check ys t
      | .error _ => [] := by
  induction xs generalizing s with
  | nil => rfl
  | cons x xs ih =>
    simp only [List.cons_append, allLooks, runAll]
    cases x.run env s with
    | error e => simp [bind, Except.bind]
    | ok t => simp only [ih, List.append_assoc, bind, Except.bind]

end

end Conform
