import Mathlib.Data.List.Nodup
import Mathlib.Data.List.Sort
import Conform.Proofs.Model.RecordChecks

/-! The validators of the program of a model visit the nodes of their roots. -/

namespace Conform

section

variable {α : Type _} (key : α → Nat)

theorem key_le_trans (a b c : α) (hab : decide (key a ≤ key b)) (hbc : decide (key b ≤ key c)) :
    decide (key a ≤ key c) :=
  decide_eq_true (Nat.le_trans (of_decide_eq_true hab) (of_decide_eq_true hbc))

theorem key_le_total (a b : α) : decide (key a ≤ key b) || decide (key b ≤ key a) := by
  simpa using Nat.le_total (key a) (key b)

theorem pairwise_mergeSort_key (l : List α) :
    (l.mergeSort fun a b => key a ≤ key b).Pairwise fun a b => key a ≤ key b :=
  (List.pairwise_mergeSort (key_le_trans key) (key_le_total key) l).imp of_decide_eq_true

theorem orderedInsert_key_append {l k : List α} {a : α} (hl : ∀ b ∈ l, ¬ key a ≤ key b)
    (hk : ∀ b ∈ k, key a ≤ key b) :
    (l ++ k).orderedInsert (fun a b => key a ≤ key b) a = l ++ a :: k := by
  induction l with
  | nil =>
    cases k with
    | nil => rfl
    | cons c k =>
      rw [List.nil_append, List.orderedInsert_cons, if_pos (hk c List.mem_cons_self),
        List.nil_append]
  | cons b l ih =>
    rw [List.cons_append, List.orderedInsert_cons, if_neg (hl b List.mem_cons_self),
      ih fun c hc => hl c (List.mem_cons_of_mem _ hc), List.cons_append]

/-- Sorting by recursion on the list, which can be evaluated by reduction. -/
theorem mergeSort_key (l : List α) :
    (l.mergeSort fun a b => key a ≤ key b) = l.insertionSort fun a b => key a ≤ key b := by
  induction l with
  | nil => exact List.mergeSort_nil
  | cons a l ih =>
    -- the element stands behind all that are smaller, and before the first that is not
    obtain ⟨l₁, l₂, hcons, hl, hlt⟩ :=
      List.mergeSort_cons (key_le_trans key) (key_le_total key) a l
    have hle := pairwise_mergeSort_key key (a :: l)
    rw [hcons, List.pairwise_append, List.pairwise_cons] at hle
    rw [hcons, List.insertionSort_cons, ← ih, hl]
    exact (orderedInsert_key_append key (fun b hb => by simpa using hlt b hb) hle.2.1.1).symm

end

namespace Program

variable {p : Program}

theorem recordCheck?_isSome {r : RecordId} (h : r ∈ p.recordChecks.map (·.record)) :
    (p.recordCheck? r).isSome := by
  obtain ⟨check, hc, rfl⟩ := List.mem_map.1 h
  rw [recordCheck?, List.getLast?_isSome]
  have : check ∈ p.recordChecks.filter (·.record == check.record) :=
    List.mem_filter.2 ⟨hc, by simp⟩
  exact List.ne_nil_of_mem this

theorem mem_of_recordCheck? {r : RecordId} {check : RecordCheck}
    (h : p.recordCheck? r = some check) : check ∈ p.recordChecks ∧ check.record = r := by
  have := List.mem_filter.1 (List.mem_of_getLast? h)
  exact ⟨this.1, by simpa using this.2⟩

theorem validator?_eq {v : Validator} (hv : v ∈ p.validators)
    (h : (p.validators.map (·.name)).Nodup) : p.validator? v.name = some v := by
  unfold validator?
  generalize p.validators = vs at hv h ⊢
  induction vs with
  | nil => simp at hv
  | cons u us ih =>
    rw [List.map_cons, List.nodup_cons] at h
    rw [List.find?_cons]
    rcases List.mem_cons.1 hv with rfl | hv
    · simp
    · have hne : u.name ≠ v.name := fun he => h.1 (he ▸ List.mem_map_of_mem hv)
      rw [beq_eq_false_iff_ne.2 hne]
      exact ih hv h.2

/-- Runs a validator with at most `bound` record checks under way at once. -/
def validateWithin (p : Program) (ts : Transforms) (bound : Nat) (name : String) (v : Value) :
    Except CheckError Value :=
  match p.validator? name with
  | none => .error (.unknownValidator name)
  | some validator => do
    let s ← runAll ⟨ts, p.checkRecord ts bound, ""⟩ validator.body ⟨v, []⟩
    return s.value

end Program

namespace Model

variable {m : Model} {p : Program} {ts : Transforms} {roots : List Root}
  {routines : List Routine}

def IsValidator (m : Model) (root : Root) (v : Validator) : Prop :=
  v.name = root.name ∧ m.stmts .root root.node = .ok v.body

theorem validators_eq {vs : List Validator} (h : m.validators roots = .ok vs) :
    List.Forall₂ m.IsValidator roots vs := by
  induction roots generalizing vs with
  | nil =>
    obtain rfl := Except.ok.inj h
    exact .nil
  | cons root roots ih =>
    obtain ⟨body, hb, h⟩ := bind_eq_ok.1 h
    obtain ⟨us, hus, h⟩ := bind_eq_ok.1 h
    obtain rfl := Except.ok.inj h
    exact .cons ⟨rfl, hb⟩ (ih hus)

theorem names_validators {vs : List Validator} (h : List.Forall₂ m.IsValidator roots vs) :
    vs.map (·.name) = roots.map (·.name) := by
  induction h with
  | nil => rfl
  | cons hv h ih => simp [hv.1, ih]

/-- What a program has to do with the model that it was written for. -/
structure Programs (m : Model) (roots : List Root) (p : Program) : Prop where
  validators : List.Forall₂ m.IsValidator roots p.validators
  calls : ∀ v ∈ p.validators, ∀ r ∈ allCalls v.body, (p.recordCheck? r).isSome
  covers : m.Covers p
  sorted : (p.recordChecks.map (·.record)).Pairwise (· < ·)
  records : ∀ r ∈ p.recordChecks.map (·.record), m.HasRecord r

theorem Written.start {vs : List Validator} (h : m.validators roots = .ok vs) :
    m.Written [] (firstOccurrences (vs.flatMap fun v => allCalls v.body)) := by
  refine ⟨nodup_firstOccurrences _, ?_, by simp, by simp⟩
  intro r hr
  obtain ⟨v, hv, hr⟩ := List.mem_flatMap.1 (mem_firstOccurrences.1 hr)
  obtain ⟨root, -, hroot⟩ := exists_of_mem_right (validators_eq h) hv
  exact calls_stmts hroot.2 hr

theorem Programs.of_program (counted : m.Counted) (numbered : m.Numbered)
    (h : m.program roots routines = .ok p) : m.Programs roots p := by
  obtain ⟨vs, hvs, h⟩ := bind_eq_ok.1 h
  obtain ⟨checks, hchecks, h⟩ := bind_eq_ok.1 h
  obtain rfl := Except.ok.inj h
  have hv := validators_eq hvs
  have hcalled : ∀ r, r ∈ firstOccurrences (vs.flatMap fun v => allCalls v.body) ↔
      ∃ v ∈ vs, r ∈ allCalls v.body := by simp [mem_firstOccurrences]
  obtain ⟨hdone, hall⟩ := (Written.start hvs).recordChecks counted numbered (by simp) hchecks
  -- sorting changes no check
  have hperm := List.mergeSort_perm checks fun a b => decide (a.record ≤ b.record)
  have hsome : ∀ r ∈ checks.map (·.record), ((Program.mk vs
      (checks.mergeSort fun a b => a.record ≤ b.record)
      (routines.mergeSort fun a b => a.conversion ≤ b.conversion)).recordCheck? r).isSome :=
    fun r hr => Program.recordCheck?_isSome ((hperm.map _).mem_iff.2 hr)
  have hnodup : (checks.map (·.record)).Nodup := by simpa using hdone.nodup
  refine ⟨hv, ?_, ?_, ?_, fun r hr => hdone.record r (by simpa using (hperm.map _).mem_iff.1 hr)⟩
  · intro v hmem r hr
    exact hsome r (hall r (by simpa using (hcalled r).2 ⟨v, hmem, hr⟩))
  · intro r check hcheck
    obtain ⟨hmem, rfl⟩ := Program.mem_of_recordCheck? hcheck
    have hmem : check ∈ checks := hperm.mem_iff.1 hmem
    refine ⟨hdone.body check hmem, fun r hr => hsome r ?_⟩
    simpa using hdone.calls check hmem r hr
  · have hle := pairwise_mergeSort_key RecordCheck.record checks
    have hne : (checks.mergeSort fun a b => decide (a.record ≤ b.record)).Pairwise
        fun a b => a.record ≠ b.record := List.pairwise_map.1 ((hperm.map _).nodup_iff.2 hnodup)
    rw [List.pairwise_map]
    exact (hle.and hne).imp fun h => Nat.lt_of_le_of_ne h.1 h.2

theorem Programs.exists_validator (h : m.Programs roots p) (names : (roots.map (·.name)).Nodup)
    {root : Root} (hroot : root ∈ roots) :
    ∃ u ∈ p.validators, p.validator? root.name = some u ∧ m.stmts .root root.node = .ok u.body := by
  obtain ⟨u, hu, hname, hbody⟩ := exists_of_mem_left h.validators hroot
  have hfind := Program.validator?_eq hu (by rwa [names_validators h.validators])
  exact ⟨u, hu, hname ▸ hfind, hbody⟩

theorem Programs.validateWithin (flat : m.Flat) (numbered : m.Numbered) (separate : m.Separate)
    (h : m.Programs roots p) (names : (roots.map (·.name)).Nodup) {root : Root}
    (hroot : root ∈ roots) {v : Value} {bound : Nat} (hbound : v.depth ≤ bound) :
    p.validateWithin ts bound root.name v =
      (m.visit ts root.node "value" v).map fun w => w.getD v := by
  obtain ⟨u, hu, hfind, hbody⟩ := h.exists_validator names hroot
  obtain ⟨chain, hchain, hbody⟩ := bind_eq_ok.1 hbody
  have hsim : m.Simulates p ts bound v := simulates flat numbered separate h.covers hbound
  have hdoes := hsim "" ⟨v, []⟩ Site.Scoped.root hchain
    (by rw [Except.ok.inj hbody]; exact h.calls u hu) (Nat.le_refl 0) rfl fun _ => rfl
  have hpath : Site.root.path.eval "" (Counters.get []) = "value" := by
    simp [Site.root, Path.eval, Path.parts, Path.partText]
  rw [Except.ok.inj hbody, hpath] at hdoes
  rw [Program.validateWithin, hfind]
  dsimp only
  cases hv : m.visit ts root.node "value" v with
  | error e =>
    rw [hv] at hdoes
    have hdoes : runAll _ u.body ⟨v, []⟩ = .error e := hdoes
    simp only [bind, Except.bind, hdoes, Except.map]
  | ok w =>
    rw [hv] at hdoes
    obtain ⟨cs, -, hrun⟩ := hdoes
    simp only [bind, Except.bind, hrun, Except.map]
    cases w <;> rfl

/-- A validator gives the value with what a visit of its node makes of it. -/
theorem Programs.validate (flat : m.Flat) (numbered : m.Numbered) (separate : m.Separate)
    (h : m.Programs roots p) (names : (roots.map (·.name)).Nodup) {root : Root}
    (hroot : root ∈ roots) (v : Value) :
    p.validate ts root.name v = (m.visit ts root.node "value" v).map fun w => w.getD v :=
  h.validateWithin flat numbered separate names hroot (Nat.le_add_right v.depth _)

end Model

end Conform
