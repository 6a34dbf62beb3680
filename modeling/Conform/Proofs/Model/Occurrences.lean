import Conform.Proofs.Model.Acts
import Conform.Proofs.Model.Looking
import Conform.Proofs.Program.Occurrences

/-! Statements that are written for a model. Each of them belongs to a node at a site, and the loops
around it are those of the arrays that the node is inside of, one for each depth. -/

namespace Conform

theorem Chain.otherwise_cases (c : Chain) (place : Place) (path : Path) :
    (∃ n, c.otherwise place path = .convert n place) ∨
      c.otherwise place path = .fail path.folded c.labels := by
  unfold otherwise
  cases c.conversion with
  | none => exact .inr rfl
  | some n => exact .inl ⟨n, rfl⟩

namespace Model

/-- The statements of a node at a site. -/
inductive StmtAt (m : Model) (site : Site) (id : NodeId) : Stmt → Prop
  | check {chain : Chain} : m.Writes site id chain →
      StmtAt m site id (.check chain.branches (chain.otherwise site.place site.path))
  | convert (n : ConversionId) : StmtAt m site id (.convert n site.place)
  | forEach (body : List Stmt) : StmtAt m site id (.forEach site.place site.depth body)
  | call (record : RecordId) : StmtAt m site id (.call record site.place site.path.folded)

section

variable {m : Model} {site t : Site} {id x : NodeId} {chain : Chain} {s : Stmt} {loops : List Nat}

theorem Writes.occurs (h : m.Writes site id chain)
    (ho : Occurs loops s (chain.toStmts site.place site.path)) :
    loops = [] ∧ m.StmtAt site id s ∨ ∃ b ∈ chain.branches, Occurs loops s b.body := by
  unfold Chain.toStmts at ho
  split_ifs at ho with hb
  · cases hc : chain.conversion with
    | none =>
      rw [hc] at ho
      exact absurd ho not_occurs_nil
    | some n =>
      rw [hc] at ho
      obtain ⟨rfl, rfl⟩ := (occurs_singleton (by simp) (by simp)).1 ho
      exact .inl ⟨rfl, .convert n⟩
  · obtain ⟨rfl, rfl⟩ | hbranch := occurs_check.1 ho
    · exact .inl ⟨rfl, .check h⟩
    · exact .inr hbranch

/-- Statements that are written for a node are those of the nodes inside it, and the loops around
them go from the depth of its site to that of theirs. -/
theorem exists_inside_of_occurs (flat : m.Flat) {bound : Nat} {active : List NodeId}
    (h : m.extend bound active site .empty id = .ok chain)
    (ho : Occurs loops s (chain.toStmts site.place site.path)) :
    ∃ t x, m.Inside site id t x ∧ m.StmtAt t x s ∧ t.depth = site.depth + loops.length ∧
      loops = List.range' site.depth loops.length := by
  have hacc : Acc (Relation.TransGen m.Within) id := acc_transGen_iff.2 (acc_of_extend h)
  induction hacc generalizing bound active site chain loops with
  | intro id _ ih =>
    have hw : m.Writes site id chain := .of_extend flat h
    obtain ⟨rfl, hs⟩ | ⟨b, hb, ho⟩ := hw.occurs ho
    · exact ⟨site, id, .self, hs, rfl, rfl⟩
    · obtain ⟨k, hk, hkb⟩ := exists_of_mem_right hw.branches hb
      have hbody := hkb.body
      cases k with
      | array element =>
        cases element with
        | none =>
          rw [show b.body = [] from hbody] at ho
          exact absurd ho not_occurs_nil
        | some element =>
          obtain ⟨bound', active', items, hitems, hloop⟩ := hbody
          rw [hloop, loop] at ho
          split_ifs at ho
          · exact absurd ho not_occurs_nil
          · obtain ⟨rfl, rfl⟩ | ⟨inner, rfl, hin⟩ := occurs_forEach.1 ho
            · exact ⟨site, id, .self, .forEach _, rfl, rfl⟩
            · -- the items are one loop further in
              have hpart := (mem_tests.1 hk).1
              obtain ⟨t, x, hx, hs, hdepth, hrange⟩ :=
                ih element (within_of_part hpart) hitems hin
              have hnext : site.item.depth = site.depth + 1 := rfl
              refine ⟨t, x, .item hpart hx, hs, ?_, ?_⟩
              · rw [hdepth, hnext, List.length_cons]
                omega
              · rw [List.length_cons, List.range'_succ, ← hnext, ← hrange]
      | record record members =>
        rw [show b.body = [.call record site.place site.path.folded] from hbody] at ho
        obtain ⟨rfl, rfl⟩ := (occurs_singleton (by simp) (by simp)).1 ho
        exact ⟨site, id, .self, .call record, rfl, rfl⟩
      | _ =>
        rw [show b.body = [] from hbody] at ho
        exact absurd ho not_occurs_nil

theorem exists_inside_of_occurs_stmts (flat : m.Flat) (hsite : site.depth = 0) {body : List Stmt}
    (h : m.stmts site id = .ok body) (ho : Occurs loops s body) :
    ∃ t x, m.Inside site id t x ∧ m.StmtAt t x s ∧ loops = List.range t.depth := by
  obtain ⟨chain, hc, h⟩ := bind_eq_ok.1 h
  rw [← Except.ok.inj h] at ho
  obtain ⟨t, x, hin, hs, hdepth, hloops⟩ := exists_inside_of_occurs flat hc ho
  rw [hsite, Nat.zero_add] at hdepth
  rw [hsite, ← hdepth, ← List.range_eq_range'] at hloops
  exact ⟨t, x, hin, hs, hloops⟩

theorem exists_inside_of_occurs_fieldStmts (flat : m.Flat) {members : List (String × NodeId)}
    {body : List Stmt} (h : m.fieldStmts members = .ok body) (ho : Occurs loops s body) :
    ∃ f ∈ members, ∃ t x, m.Inside (.field f.1) f.2 t x ∧ m.StmtAt t x s ∧
      loops = List.range t.depth := by
  induction members generalizing body with
  | nil =>
    rw [← Except.ok.inj h] at ho
    exact absurd ho not_occurs_nil
  | cons f fs ih =>
    obtain ⟨head, hhead, h⟩ := bind_eq_ok.1 h
    obtain ⟨rest, hrest, h⟩ := bind_eq_ok.1 h
    rw [← Except.ok.inj h] at ho
    rcases occurs_append.1 ho with ho | ho
    · exact ⟨f, List.mem_cons_self, exists_inside_of_occurs_stmts flat rfl hhead ho⟩
    · obtain ⟨g, hg, hrest⟩ := ih hrest ho
      exact ⟨g, List.mem_cons_of_mem f hg, hrest⟩

/-! ### Counters -/

theorem Site.Scoped.inside (h : site.Scoped) (hin : m.Inside site id t x) : t.Scoped := by
  induction hin with
  | self => exact h
  | item _ _ ih => exact ih h.item

theorem Inside.given_notMem (hin : m.Inside site id t x) (h : .given ∉ site.path.parts) :
    .given ∉ t.path.parts := by
  induction hin with
  | self => exact h
  | item _ _ ih => exact ih (by simpa [Site.item, itemPath, Path.parts] using h)

theorem StmtAt.place (h : m.StmtAt site id s) : ∀ p ∈ s.places, p = site.place := by
  intro p hp
  cases h with
  | @check chain hw =>
    rcases List.mem_append.1 hp with hp | hp
    · obtain ⟨b, hb, rfl⟩ := List.mem_map.1 hp
      obtain ⟨k, -, hkb⟩ := exists_of_mem_right hw.branches hb
      rw [hkb.test, NodeKind.place_test]
    · rcases chain.otherwise_cases site.place site.path with ⟨n, ho⟩ | ho
      · rw [ho] at hp
        exact List.mem_singleton.1 hp
      · rw [ho] at hp
        cases hp
  | convert n => exact List.mem_singleton.1 hp
  | forEach body => exact List.mem_singleton.1 hp
  | call record => exact List.mem_singleton.1 hp

theorem StmtAt.path (h : m.StmtAt site id s) : ∀ p ∈ s.paths, p = site.path.folded := by
  intro p hp
  cases h with
  | @check chain _ =>
    rw [Stmt.paths] at hp
    rcases chain.otherwise_cases site.place site.path with ⟨n, ho⟩ | ho
    · rw [ho] at hp
      cases hp
    · rw [ho] at hp
      exact List.mem_singleton.1 hp
  | convert n => cases hp
  | forEach body => cases hp
  | call record => exact List.mem_singleton.1 hp

/-- What is written at a site in scope is in the scope of the loops up to its depth. -/
theorem StmtAt.inScope (h : m.StmtAt site id s) (hs : site.Scoped) :
    s.InScope (List.range site.depth) where
  depth array depth body hfor := by
    subst hfor
    cases h
    exact List.length_range.symm
  places p hp d hd := by
    obtain rfl := h.place p hp
    exact List.mem_range.2 (Place.within_iff.1 hs.place d hd)
  paths p hp d hd := by
    obtain rfl := h.path p hp
    exact List.mem_range.2 (Path.within_iff.1 hs.path.folded d hd)

end

end Model

end Conform
