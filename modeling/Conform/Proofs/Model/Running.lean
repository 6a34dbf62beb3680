import Conform.Proofs.Model.Visit
import Conform.Proofs.Model.Written
import Conform.Proofs.Program.Folding

/-! Running what is written for the tests of a node: the branch of the first test that holds is
run, and the fallback is what the conversion, or the failure, of the node asks for. -/

namespace Conform

theorem runAll_singleton (env : Env) (stmt : Stmt) (s : State) :
    runAll env [stmt] s = stmt.run env s := by
  simp only [runAll]
  cases stmt.run env s <;> rfl

theorem runAll_append (env : Env) (xs ys : List Stmt) (s : State) :
    runAll env (xs ++ ys) s = runAll env xs s >>= runAll env ys := by
  induction xs generalizing s with
  | nil => rfl
  | cons x xs ih =>
    simp only [List.cons_append, runAll]
    cases x.run env s with
    | error e => rfl
    | ok t => exact ih t

theorem allCalls_append (xs ys : List Stmt) : allCalls (xs ++ ys) = allCalls xs ++ allCalls ys := by
  induction xs with
  | nil => rfl
  | cons x xs ih => simp [allCalls, ih]

theorem mem_branchCalls {bs : List Branch} {b : Branch} (hb : b ∈ bs) {r : RecordId}
    (hr : r ∈ allCalls b.body) : r ∈ branchCalls bs := by
  induction bs with
  | nil => simp at hb
  | cons c cs ih =>
    cases c with
    | mk label test body =>
      simp only [branchCalls, List.mem_append]
      rcases List.mem_cons.1 hb with rfl | hb
      · exact Or.inl hr
      · exact Or.inr (ih hb)

namespace State

def settle (s : State) (p : Place) : Option Value → Value
  | none => s.value
  | some w => Value.write w (p.steps s.counters) s.value

theorem convert_eq (s : State) (env : Env) (n : ConversionId) (p : Place) :
    s.convert env n p = (env.transforms.apply n (s.read p)).map (s.write p) := by
  unfold convert Transforms.apply
  cases env.transforms.get? n with
  | none => rfl
  | some t =>
    dsimp only
    cases t (s.read p) <;> rfl

end State

namespace Model

variable {m : Model} {site : Site}

/-- The branch that is run is that of the first test that admits the value. -/
theorem runBranches_eq (env : Env) (otherwise : Fallback) (s : State) {ks : List NodeKind}
    {bs : List Branch} (h : List.Forall₂ (m.IsBranch site) ks bs) (hk : ∀ k ∈ ks, k.isTest) :
    (ks.find? (·.admits (s.read site.place)) = none ∧
        runBranches env otherwise bs s = s.fallback env otherwise) ∨
      ∃ k b, ks.find? (·.admits (s.read site.place)) = some k ∧ m.IsBranch site k b ∧ b ∈ bs ∧
        runBranches env otherwise bs s = runAll env b.body s := by
  induction h with
  | nil => exact Or.inl ⟨rfl, rfl⟩
  | @cons k b ks bs hkb h ih =>
    cases b with
    | mk label test body =>
      have htest : test = k.test site.place := hkb.test
      have hholds := NodeKind.holds_test (hk k (by simp)) s site.place
      rw [← htest] at hholds
      simp only [runBranches, hholds, List.find?_cons]
      cases hadm : k.admits (s.read site.place) with
      | true => exact Or.inr ⟨k, .mk label test body, rfl, hkb, by simp, rfl⟩
      | false =>
        rcases ih fun k hk' => hk k (by simp [hk']) with ⟨h1, h2⟩ | ⟨k', b', h1, h2, h3, h4⟩
        · exact Or.inl ⟨h1, by simpa using h2⟩
        · exact Or.inr ⟨k', b', h1, h2, by simp [h3], by simpa using h4⟩

theorem labels_eq {ks : List NodeKind} {bs : List Branch}
    (h : List.Forall₂ (m.IsBranch site) ks bs) : bs.map (·.label) = ks.map (·.label) := by
  induction h with
  | nil => rfl
  | cons hkb h ih => simp [hkb.label, ih]

theorem isTest_of_mem_tests {id : NodeId} : ∀ k ∈ m.tests id, k.isTest := by
  intro k hk
  exact (List.mem_filter.1 hk).2

/-- What a chain is made of once it was written for a node. -/
structure Writes (m : Model) (site : Site) (id : NodeId) (chain : Chain) : Prop where
  branches : List.Forall₂ (m.IsBranch site) (m.tests id) chain.branches
  conversion : chain.conversion = m.conversion? id

theorem Writes.of_extend (flat : m.Flat) {bound : Nat} {active : List NodeId} {id : NodeId}
    {chain : Chain} (h : m.extend bound active site .empty id = .ok chain) :
    m.Writes site id chain := by
  obtain ⟨⟨bs, hbs, hk⟩, hc⟩ := extend_node flat h
  obtain rfl : chain.branches = bs := by simpa [Chain.empty] using hbs
  exact ⟨hk, by simpa [Chain.empty, conversion?] using hc⟩

theorem Writes.isEmpty {id : NodeId} {chain : Chain} (h : m.Writes site id chain) :
    chain.branches.isEmpty = (m.tests id).isEmpty := by
  have := h.branches.length_eq
  cases hb : chain.branches <;> cases ht : m.tests id <;> simp_all

/-- The fallback of a chain does with a value what the node does with one that it admits not. -/
theorem Writes.fallback {id : NodeId} {chain : Chain} (h : m.Writes site id chain)
    (hne : (m.tests id).isEmpty = false) (env : Env) (s : State) :
    s.fallback env (chain.otherwise site.place site.path) =
      (m.leftover env.transforms id (s.pathText env site.path) (s.read site.place)).map
        fun w => { s with value := s.settle site.place w } := by
  unfold leftover Chain.otherwise
  rw [h.conversion]
  cases m.conversion? id with
  | some n =>
    simp only [State.fallback, State.convert_eq]
    cases env.transforms.apply n (s.read site.place) <;> rfl
  | none =>
    simp only [State.fallback, hne, Chain.labels, labels_eq h.branches, State.pathText,
      Path.eval_folded]
    rfl

end Model

end Conform
