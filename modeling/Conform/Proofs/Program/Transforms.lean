import Conform.Proofs.Model.Alternatives
import Conform.Proofs.Program.Looks

/-! Running a program with other transforms. A run is the same as long as the other transforms give
the same results at all the conversions that it makes, so it is the values that a run looks at that
count, and not what the transforms do elsewhere. -/

namespace Conform

/-- Whether what one list of transforms gives at a look, the other one gives as well. -/
def Look.Carries (ts ts' : Transforms) (l : Look) : Prop :=
  ∀ n, l.deed = .convert n → ∀ t w, ts.get? n = some t → t l.seen = .ok w →
    ∃ t', ts'.get? n = some t' ∧ t' l.seen = .ok w

/-- Whether record checks do the same in another environment, where `check` gives their looks and
all of those carry. -/
structure Carries (env : Env) (check : RecordId → String → Value → List Look) (env' : Env) :
    Prop where
  given : env'.given = env.given
  some : ∀ r c, env.check? r = some c → ∃ c', env'.check? r = some c' ∧
    ∀ given v w, (∀ l ∈ check r given v, l.Carries env.transforms env'.transforms) →
      c given v = .ok w → c' given v = .ok w

section

variable {env : Env} {check : RecordId → String → Value → List Look} {env' : Env}
  {s t : State}

theorem Look.Carries.convert {n : ConversionId} {target : Place}
    (hl : (s.look (.convert n) target).Carries env.transforms env'.transforms)
    (h : s.convert env n target = .ok t) : s.convert env' n target = .ok t := by
  unfold State.convert at h ⊢
  cases htr : env.transforms.get? n with
  | none => simp [htr] at h
  | some tr =>
    rw [htr] at h
    cases hw : tr (s.read target) with
    | error message => simp [hw] at h
    | ok w =>
      obtain ⟨tr', htr', hw'⟩ := hl n rfl tr w htr hw
      have hw' : tr' (s.read target) = .ok w := hw'
      rw [htr']
      simpa [hw, hw'] using h

theorem fallback_carries {f : Fallback}
    (hl : ∀ l ∈ f.looks s, l.Carries env.transforms env'.transforms)
    (hrun : s.fallback env f = .ok t) : s.fallback env' f = .ok t := by
  cases f with
  | convert n target => exact (hl _ (List.mem_singleton_self _)).convert hrun
  | fail path expected => cases hrun

theorem Carries.call {record : RecordId} {place : Place} {path : Path} (h : Carries env check env')
    (hl : ∀ l ∈ s.callLooks env check record place path,
      l.Carries env.transforms env'.transforms)
    (hrun : s.call env record place path = .ok t) : s.call env' record place path = .ok t := by
  have hpath : s.pathText env' path = s.pathText env path := by
    rw [State.pathText, State.pathText, h.given]
  unfold State.call at hrun ⊢
  cases hc : env.check? record with
  | none => simp [hc] at hrun
  | some c =>
    obtain ⟨c', hc', hsame⟩ := h.some record c hc
    rw [State.callLooks] at hl
    cases hslot : s.value.slot? (place.steps s.counters) with
    | none => simp [hc, hslot] at hrun
    | some slot =>
      simp only [hc, hslot, hc', hpath] at hrun hl ⊢
      obtain ⟨w, hw, hrun⟩ := bind_eq_ok.1 hrun
      have hinner : ∀ l ∈ check record (s.pathText env path) slot,
          l.Carries env.transforms env'.transforms :=
        fun l hm => (List.forall_mem_map.1 (List.forall_mem_cons.1 hl).2) l hm
      exact bind_eq_ok.2 ⟨w, hsame _ _ _ hinner hw, hrun⟩

theorem foldlM_carries {array : Place} {depth length : Nat} {looks : State → List Look}
    {ts ts' : Transforms} {run run' : State → Except CheckError State}
    (hbody : ∀ s t, (∀ l ∈ looks s, l.Carries ts ts') → run s = .ok t → run' s = .ok t)
    {is : List Nat} (hl : ∀ l ∈ roundLooks array depth length looks run is s, l.Carries ts ts')
    (hrun : is.foldlM (fun s i => run { s with counters := s.counters.put depth i }) s = .ok t) :
    is.foldlM (fun s i => run' { s with counters := s.counters.put depth i }) s = .ok t := by
  induction is generalizing s with
  | nil => exact hrun
  | cons i is ih =>
    rw [roundLooks, List.cons_append] at hl
    obtain ⟨hround, hrest⟩ := List.forall_mem_append.1 (List.forall_mem_cons.1 hl).2
    rw [List.foldlM_cons] at hrun ⊢
    obtain ⟨u, hu, hrun⟩ := bind_eq_ok.1 hrun
    rw [hu] at hrest
    exact bind_eq_ok.2 ⟨u, hbody _ _ hround hu, ih hrest hrun⟩

mutual

/-- A run that succeeds goes the same way where its conversions carry. -/
theorem Stmt.run_carries (h : Carries env check env') (stmt : Stmt) (s t : State)
    (hl : ∀ l ∈ stmt.looks env check s, l.Carries env.transforms env'.transforms)
    (hrun : stmt.run env s = .ok t) : stmt.run env' s = .ok t := by
  cases stmt with
  | check branches otherwise => exact runBranches_carries h otherwise branches s t hl hrun
  | convert n target => exact (hl _ (List.mem_singleton_self _)).convert hrun
  | forEach array depth body =>
    have hl := (List.forall_mem_cons.1 hl).2
    exact foldlM_carries (fun s t => runAll_carries h body s t)
      (fun l hm => (List.forall_mem_map.1 hl) l hm) hrun
  | call record place path => exact h.call hl hrun

theorem runAll_carries (h : Carries env check env') (stmts : List Stmt) (s t : State)
    (hl : ∀ l ∈ allLooks env check stmts s, l.Carries env.transforms env'.transforms)
    (hrun : runAll env stmts s = .ok t) : runAll env' stmts s = .ok t := by
  cases stmts with
  | nil => exact hrun
  | cons stmt stmts =>
    rw [allLooks] at hl
    obtain ⟨hstmt, hrest⟩ := List.forall_mem_append.1 hl
    rw [runAll] at hrun ⊢
    obtain ⟨u, hu, hrun⟩ := bind_eq_ok.1 hrun
    rw [hu] at hrest
    exact bind_eq_ok.2 ⟨u, Stmt.run_carries h stmt s u hstmt hu,
      runAll_carries h stmts u t hrest hrun⟩

theorem runBranches_carries (h : Carries env check env') (otherwise : Fallback)
    (branches : List Branch) (s t : State)
    (hl : ∀ l ∈ branchLooks env check otherwise branches s,
      l.Carries env.transforms env'.transforms)
    (hrun : runBranches env otherwise branches s = .ok t) :
    runBranches env' otherwise branches s = .ok t := by
  match branches with
  | [] => exact fallback_carries hl hrun
  | .mk _ test body :: branches =>
    rw [branchLooks] at hl
    have hl := (List.forall_mem_cons.1 hl).2
    rw [runBranches] at hrun ⊢
    cases hholds : s.holds test with
    | true =>
      rw [hholds] at hl hrun
      exact runAll_carries h body s t hl hrun
    | false =>
      rw [hholds] at hl hrun
      exact runBranches_carries h otherwise branches s t hl hrun

end

end

namespace Program

variable {p : Program} {ts ts' : Transforms}

theorem checkRecord_carries (p : Program) (ts ts' : Transforms) (n : Nat) (given : String) :
    Carries ⟨ts, p.checkRecord ts n, given⟩ (p.recordLooks ts n)
      ⟨ts', p.checkRecord ts' n, given⟩ := by
  induction n generalizing given with
  | zero =>
    refine ⟨rfl, fun r c hc => ?_⟩
    obtain ⟨check, hcheck, rfl⟩ := Option.map_eq_some_iff.1 hc
    exact ⟨_, Option.map_eq_some_iff.2 ⟨check, hcheck, rfl⟩, fun _ _ _ _ h => h⟩
  | succ n ih =>
    refine ⟨rfl, fun r c hc => ?_⟩
    obtain ⟨check, hcheck, rfl⟩ := Option.map_eq_some_iff.1 hc
    refine ⟨_, Option.map_eq_some_iff.2 ⟨check, hcheck, rfl⟩, fun given v w hl hrun => ?_⟩
    simp only [recordLooks, hcheck] at hl
    obtain ⟨s, hs, hrun⟩ := bind_eq_ok.1 hrun
    exact bind_eq_ok.2 ⟨s, runAll_carries (ih given) check.body _ s hl hs, hrun⟩

/-- Values pass with other transforms as they do with these if each conversion of the run carries. -/
theorem validate_of_carries {name : String} {v w : Value}
    (hl : ∀ l ∈ p.looks ts name v, l.Carries ts ts') (h : p.validate ts name v = .ok w) :
    p.validate ts' name v = .ok w := by
  unfold looks at hl
  unfold validate at h ⊢
  cases hf : p.validator? name with
  | none => simp [hf] at h
  | some u =>
    simp only [hf] at hl h ⊢
    obtain ⟨s, hs, h⟩ := bind_eq_ok.1 h
    exact bind_eq_ok.2 ⟨s, runAll_carries (p.checkRecord_carries ts ts' _ "") u.body _ s hl hs, h⟩

end Program

end Conform
