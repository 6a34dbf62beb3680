import Conform.Proofs.Model.Endless
import Conform.Proofs.Program.Acts

/-! The acts of what is written for a model. Each of them belongs to a node at a site, and each node
that is written out somewhere inside another one has its acts there. -/

namespace Conform

namespace Model

/-- The site and the node of what is written out when a node is: the node itself, and the elements
of the arrays among its parts. -/
inductive Inside (m : Model) : Site → NodeId → Site → NodeId → Prop
  | self {site : Site} {id : NodeId} : Inside m site id site id
  | item {site t : Site} {id element x : NodeId} : .array (some element) ∈ m.parts id →
      Inside m site.item element t x → Inside m site id t x

/-- The acts of a node at a site. -/
inductive ActsAt (m : Model) (site : Site) (id : NodeId) : Act → Prop
  | fail : m.tests id ≠ [] → m.conversion? id = none →
      ActsAt m site id (.fail site.path.folded (firstOccurrences ((m.tests id).map (·.label))))
  | convert {n : ConversionId} : m.conversion? id = some n →
      ActsAt m site id (.convert n site.place)
  | call {record : RecordId} {members : List (String × NodeId)} :
      .record record members ∈ m.parts id →
      ActsAt m site id (.call record site.place site.path.folded)

section

variable {m : Model} {site t : Site} {id x : NodeId} {chain : Chain} {a : Act}

theorem mem_tests {k : NodeKind} : k ∈ m.tests id ↔ k ∈ m.parts id ∧ k.isTest :=
  List.mem_filter

theorem allActs_loop (site : Site) (body : List Stmt) :
    allActs (loop site body) = allActs body := by
  unfold loop
  split_ifs with h
  · rw [List.isEmpty_iff.1 h]
  · simp [allActs, Stmt.acts]

theorem Writes.fallback_act (h : m.Writes site id chain) :
    a = (chain.otherwise site.place site.path).act ↔
      (∃ n, m.conversion? id = some n ∧ a = .convert n site.place) ∨
        m.conversion? id = none ∧
          a = .fail site.path.folded (firstOccurrences ((m.tests id).map (·.label))) := by
  rw [Chain.otherwise, h.conversion, Chain.labels, labels_eq h.branches]
  cases m.conversion? id <;> simp [Fallback.act]

theorem Writes.mem_acts (h : m.Writes site id chain) :
    a ∈ allActs (chain.toStmts site.place site.path) ↔
      (∃ b ∈ chain.branches, a ∈ allActs b.body) ∨
        (∃ n, m.conversion? id = some n ∧ a = .convert n site.place) ∨
        m.tests id ≠ [] ∧ m.conversion? id = none ∧
          a = .fail site.path.folded (firstOccurrences ((m.tests id).map (·.label))) := by
  unfold Chain.toStmts
  split_ifs with hb
  · have ht : m.tests id = [] := by
      rw [h.isEmpty] at hb
      exact List.isEmpty_iff.1 hb
    rw [List.isEmpty_iff.1 hb, h.conversion]
    cases m.conversion? id <;> simp [allActs, Stmt.acts, ht]
  · have ht : m.tests id ≠ [] := fun ht => hb (by rw [h.isEmpty, ht]; rfl)
    simp only [allActs, Stmt.acts, List.append_nil, List.mem_append, List.mem_singleton,
      mem_branchActs, h.fallback_act, ne_eq, ht, not_false_eq_true, true_and]

theorem within_of_part {element : NodeId} (h : .array (some element) ∈ m.parts id) :
    Relation.TransGen m.Within element id := by
  unfold parts at h
  split at h
  · rename_i members hm
    obtain ⟨y, hy, hk⟩ := List.mem_map.1 h
    exact .tail (.single (Or.inl hk)) (Or.inr ⟨members, hm, hy⟩)
  · exact .single (Or.inl (List.mem_singleton.1 h).symm)

/-- Acts that are written for a node are those of the nodes inside it. -/
theorem exists_inside (flat : m.Flat) {bound : Nat} {active : List NodeId}
    (h : m.extend bound active site .empty id = .ok chain)
    (ha : a ∈ allActs (chain.toStmts site.place site.path)) :
    ∃ t x, m.Inside site id t x ∧ m.ActsAt t x a := by
  have hacc : Acc (Relation.TransGen m.Within) id := acc_transGen_iff.2 (acc_of_extend h)
  induction hacc generalizing bound active site chain with
  | intro id _ ih =>
    have hw : m.Writes site id chain := .of_extend flat h
    rcases hw.mem_acts.1 ha with ⟨b, hb, hab⟩ | ⟨n, hn, rfl⟩ | ⟨ht, hn, rfl⟩
    · obtain ⟨k, hk, hkb⟩ := exists_of_mem_right hw.branches hb
      have hbody := hkb.body
      cases k with
      | array element =>
        cases element with
        | none =>
          rw [show b.body = [] from hbody] at hab
          cases hab
        | some element =>
          obtain ⟨bound', active', items, hitems, hloop⟩ := hbody
          rw [hloop, allActs_loop] at hab
          have hpart := (mem_tests.1 hk).1
          obtain ⟨t, x, hin, hact⟩ := ih element (within_of_part hpart) hitems hab
          exact ⟨t, x, .item hpart hin, hact⟩
      | record record members =>
        rw [show b.body = [.call record site.place site.path.folded] from hbody] at hab
        obtain rfl := List.mem_singleton.1 hab
        exact ⟨site, id, .self, .call (mem_tests.1 hk).1⟩
      | _ =>
        rw [show b.body = [] from hbody] at hab
        cases hab
    · exact ⟨site, id, .self, .convert hn⟩
    · exact ⟨site, id, .self, .fail ht hn⟩

theorem Inside.acts (flat : m.Flat) (hin : m.Inside site id t x) (hact : m.ActsAt t x a)
    {bound : Nat} {active : List NodeId} (h : m.extend bound active site .empty id = .ok chain) :
    a ∈ allActs (chain.toStmts site.place site.path) := by
  induction hin generalizing bound active chain with
  | @self site id =>
    have hw : m.Writes site id chain := .of_extend flat h
    refine hw.mem_acts.2 ?_
    cases hact with
    | fail ht hn => exact Or.inr (Or.inr ⟨ht, hn, rfl⟩)
    | convert hn => exact Or.inr (Or.inl ⟨_, hn, rfl⟩)
    | call hr =>
      obtain ⟨b, hb, hkb⟩ := exists_of_mem_left hw.branches (mem_tests.2 ⟨hr, rfl⟩)
      refine Or.inl ⟨b, hb, ?_⟩
      rw [show b.body = _ from hkb.body]
      exact List.mem_singleton_self _
  | @item site t id element x hpart _ ih =>
    have hw : m.Writes site id chain := .of_extend flat h
    obtain ⟨b, hb, hkb⟩ := exists_of_mem_left hw.branches (mem_tests.2 ⟨hpart, rfl⟩)
    obtain ⟨bound', active', items, hitems, hloop⟩ := hkb.body
    refine hw.mem_acts.2 (Or.inl ⟨b, hb, ?_⟩)
    rw [hloop, allActs_loop]
    exact ih hact hitems

theorem mem_acts_stmts (flat : m.Flat) {body : List Stmt} (h : m.stmts site id = .ok body) :
    a ∈ allActs body ↔ ∃ t x, m.Inside site id t x ∧ m.ActsAt t x a := by
  obtain ⟨chain, hc, h⟩ := bind_eq_ok.1 h
  rw [← Except.ok.inj h]
  exact ⟨exists_inside flat hc, fun ⟨_, _, hin, hact⟩ => hin.acts flat hact hc⟩

theorem mem_acts_fieldStmts (flat : m.Flat) {members : List (String × NodeId)}
    {body : List Stmt} (h : m.fieldStmts members = .ok body) :
    a ∈ allActs body ↔
      ∃ f ∈ members, ∃ t x, m.Inside (.field f.1) f.2 t x ∧ m.ActsAt t x a := by
  induction members generalizing body with
  | nil =>
    rw [← Except.ok.inj h]
    simp [allActs]
  | cons f fs ih =>
    obtain ⟨head, hhead, h⟩ := bind_eq_ok.1 h
    obtain ⟨rest, hrest, h⟩ := bind_eq_ok.1 h
    rw [← Except.ok.inj h, allActs_append, List.mem_append, mem_acts_stmts flat hhead, ih hrest,
      List.exists_mem_cons_iff]

end

end Model

end Conform
