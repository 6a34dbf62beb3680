import Mathlib.Data.List.Nodup
import Mathlib.Data.List.Perm.Subperm
import Conform.Proofs.Model.Simulation

/-! The record checks of a program: one for each record that validators call, or that a record
check calls in turn. The worklist ends with none of them missing, since no record is taken twice
and there are no more than are counted. -/

namespace Conform

theorem mem_firstOccurrences {α : Type _} [BEq α] [LawfulBEq α] {xs : List α} {x : α} :
    x ∈ firstOccurrences xs ↔ x ∈ xs := by
  suffices h : ∀ acc : List α,
      x ∈ xs.foldl (fun acc x => if acc.contains x then acc else acc ++ [x]) acc ↔
        x ∈ acc ∨ x ∈ xs by simpa [firstOccurrences] using h []
  induction xs with
  | nil => simp
  | cons y ys ih =>
    intro acc
    rw [List.foldl_cons, ih]
    split_ifs with hy
    · have hy : y ∈ acc := by simpa using hy
      rw [List.mem_cons]
      exact ⟨fun h => h.imp_right Or.inr,
        fun h => h.elim Or.inl fun h => h.elim (fun h => Or.inl (h ▸ hy)) Or.inr⟩
    · simp [or_assoc]

theorem nodup_firstOccurrences {α : Type _} [BEq α] [LawfulBEq α] (xs : List α) :
    (firstOccurrences xs).Nodup := by
  suffices h : ∀ acc : List α, acc.Nodup →
      (xs.foldl (fun acc x => if acc.contains x then acc else acc ++ [x]) acc).Nodup from
    h [] List.nodup_nil
  induction xs with
  | nil => exact fun acc h => h
  | cons y ys ih =>
    intro acc hacc
    rw [List.foldl_cons]
    apply ih
    split_ifs with hy
    · exact hacc
    · rw [List.nodup_append]
      refine ⟨hacc, List.nodup_singleton y, ?_⟩
      intro a ha b hb hab
      rw [List.mem_singleton.1 hb] at hab
      exact hy (by simpa [hab] using ha)

theorem branchCalls_append (bs cs : List Branch) :
    branchCalls (bs ++ cs) = branchCalls bs ++ branchCalls cs := by
  induction bs with
  | nil => rfl
  | cons b bs ih =>
    cases b with
    | mk label test body => simp [branchCalls, ih]

theorem branchCalls_add (c : Chain) (label : String) (test : Test) (body : List Stmt) :
    branchCalls (c.add label test body).branches = branchCalls c.branches ++ allCalls body := by
  simp [Chain.add, branchCalls_append, branchCalls]

theorem allCalls_toStmts (c : Chain) (place : Place) (path : Path) :
    allCalls (c.toStmts place path) = branchCalls c.branches := by
  unfold Chain.toStmts
  split_ifs with h
  · rw [List.isEmpty_iff.1 h]
    cases c.conversion <;> rfl
  · simp [allCalls, Stmt.calls]

namespace Model

def HasRecord (m : Model) (record : RecordId) : Prop :=
  ∃ id members, m.kind id = .record record members

def Counted (m : Model) : Prop :=
  ∀ id record members, m.kind id = .record record members → record < m.recordCount

section

variable {m : Model} {site : Site} {r : RecordId}

/-- Only records are called. -/
theorem calls_extend {bound : Nat} {active : List NodeId} {chain chain' : Chain} {id : NodeId}
    (h : m.extend bound active site chain id = .ok chain')
    (hr : r ∈ branchCalls chain'.branches) : r ∈ branchCalls chain.branches ∨ m.HasRecord r := by
  induction bound generalizing active site chain chain' id with
  | zero => simp [extend] at h
  | succ bound ih =>
    cases extend_cases h with
    | any => exact Or.inl hr
    | leaf =>
      rw [branchCalls_add, List.mem_append] at hr
      exact hr.imp_right fun hr => by simp [allCalls] at hr
    | @record record members hk =>
      rw [branchCalls_add, List.mem_append] at hr
      refine hr.imp_right fun hr => ⟨id, members, ?_⟩
      simp only [allCalls, Stmt.calls, List.mem_append, List.mem_singleton,
        List.not_mem_nil, or_false] at hr
      rw [hr, hk]
    | array hk hi =>
      rw [branchCalls_add, List.mem_append] at hr
      refine hr.imp_right fun hr => ?_
      unfold loop at hr
      split_ifs at hr with he
      · simp [allCalls] at hr
      · simp only [allCalls, Stmt.calls, List.append_nil, allCalls_toStmts] at hr
        exact (ih hi hr).resolve_left (by simp [Chain.empty, branchCalls])
    | @union members _ _ h =>
      clear * - h hr ih
      induction members generalizing chain with
      | nil =>
        obtain rfl := Except.ok.inj h
        exact Or.inl hr
      | cons x xs ihx =>
        rw [List.foldlM_cons] at h
        obtain ⟨c, hc, h⟩ := bind_eq_ok.1 h
        rcases ihx h with hr | hr
        · exact ih hc hr
        · exact Or.inr hr
    | conversion => exact Or.inl hr

theorem calls_stmts {id : NodeId} {body : List Stmt} (h : m.stmts site id = .ok body)
    (hr : r ∈ allCalls body) : m.HasRecord r := by
  obtain ⟨chain, hc, h⟩ := bind_eq_ok.1 h
  rw [← Except.ok.inj h, allCalls_toStmts] at hr
  exact (calls_extend hc hr).resolve_left (by simp [Chain.empty, branchCalls])

theorem calls_fieldStmts {members : List (String × NodeId)} {body : List Stmt}
    (h : m.fieldStmts members = .ok body) (hr : r ∈ allCalls body) : m.HasRecord r := by
  induction members generalizing body with
  | nil =>
    rw [← Except.ok.inj h] at hr
    simp [allCalls] at hr
  | cons member members ih =>
    obtain ⟨head, hhead, h⟩ := bind_eq_ok.1 h
    obtain ⟨rest, hrest, h⟩ := bind_eq_ok.1 h
    rw [← Except.ok.inj h, allCalls_append, List.mem_append] at hr
    exact hr.elim (calls_stmts hhead) (ih hrest)

end

/-- What holds while record checks are written: those that are done and those that are queued
are different records, and what is called is done or queued. -/
structure Written (m : Model) (done : List RecordCheck) (queue : List RecordId) : Prop where
  nodup : (done.map (·.record) ++ queue).Nodup
  record : ∀ r ∈ done.map (·.record) ++ queue, m.HasRecord r
  body : ∀ c ∈ done, ∃ members, m.recordMembers? c.record = some members ∧
    m.fieldStmts members = .ok c.body
  calls : ∀ c ∈ done, ∀ r ∈ allCalls c.body, r ∈ done.map (·.record) ++ queue

section

variable {m : Model} {done checks : List RecordCheck} {queue : List RecordId}

/-- One record is taken from the queue, and what it calls is added. -/
theorem Written.step {record : RecordId} {members : List (String × NodeId)} {body : List Stmt}
    (h : m.Written done (record :: queue)) (hm : m.recordMembers? record = some members)
    (hb : m.fieldStmts members = .ok body) :
    m.Written (done ++ [⟨record, body⟩])
      (queue ++ (firstOccurrences (allCalls body)).filter
        fun r => !(done.map (·.record) ++ record :: queue).contains r) := by
  set met := done.map (·.record) ++ record :: queue with hmet
  set new := (firstOccurrences (allCalls body)).filter fun r => !met.contains r with hnew
  have hlist : (done ++ [(⟨record, body⟩ : RecordCheck)]).map (·.record) ++ (queue ++ new) =
      met ++ new := by
    simp [hmet]
  have hmem : ∀ r, r ∈ new ↔ r ∈ allCalls body ∧ r ∉ met := by
    intro r
    rw [hnew, List.mem_filter, mem_firstOccurrences]
    simp
  refine ⟨?_, ?_, ?_, ?_⟩
  · rw [hlist, List.nodup_append]
    refine ⟨h.nodup, (nodup_firstOccurrences _).filter _, ?_⟩
    intro a ha b hb hab
    exact ((hmem b).1 hb).2 (hab ▸ ha)
  · rw [hlist]
    intro r hr
    rcases List.mem_append.1 hr with hr | hr
    · exact h.record r hr
    · exact calls_fieldStmts hb ((hmem r).1 hr).1
  · intro c hc
    rcases List.mem_append.1 hc with hc | hc
    · exact h.body c hc
    · rw [List.mem_singleton.1 hc]
      exact ⟨members, hm, hb⟩
  · rw [hlist]
    intro c hc r hr
    rcases List.mem_append.1 hc with hc | hc
    · exact List.mem_append_left _ (h.calls c hc r hr)
    · rw [List.mem_singleton.1 hc] at hr
      by_cases hmr : r ∈ met
      · exact List.mem_append_left _ hmr
      · exact List.mem_append_right _ ((hmem r).2 ⟨hr, hmr⟩)

theorem Written.length_le (counted : m.Counted) (h : m.Written done queue) :
    done.length ≤ m.recordCount := by
  have hsub : done.map (·.record) ⊆ List.range m.recordCount := by
    intro r hr
    obtain ⟨id, members, hk⟩ := h.record r (List.mem_append_left _ hr)
    exact List.mem_range.2 (counted id r members hk)
  have := (List.subperm_of_subset (List.nodup_append.1 h.nodup).1 hsub).length_le
  simpa using this

/-- The worklist ends with everything that was queued or called. -/
theorem Written.recordChecks (counted : m.Counted) (numbered : m.Numbered) {bound : Nat}
    (h : m.Written done queue) (hbound : m.recordCount < bound + done.length)
    (hc : m.recordChecks bound done queue = .ok checks) :
    m.Written checks [] ∧ ∀ r ∈ done.map (·.record) ++ queue, r ∈ checks.map (·.record) := by
  induction bound generalizing done queue with
  | zero =>
    have := h.length_le counted
    omega
  | succ bound ih =>
    cases queue with
    | nil =>
      rw [Model.recordChecks] at hc
      obtain rfl := Except.ok.inj hc
      exact ⟨h, fun r hr => by simpa using hr⟩
    | cons record queue =>
      obtain ⟨id, members, hk⟩ := h.record record (by simp)
      have hm := numbered id record members hk
      simp only [Model.recordChecks, hm] at hc
      obtain ⟨body, hb, hc⟩ := bind_eq_ok.1 hc
      have hnext := ih (h.step hm hb) (by simp; omega) hc
      refine ⟨hnext.1, fun r hr => hnext.2 r ?_⟩
      rw [List.map_append, List.append_assoc]
      rw [List.mem_append, List.mem_cons] at hr
      simp only [List.map_cons, List.map_nil, List.mem_append, List.mem_cons, List.not_mem_nil]
      tauto

end

end Model

end Conform
