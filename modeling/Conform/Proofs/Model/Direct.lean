import Conform.Proofs.Model.Visit
import Conform.Proofs.Model.Written

/-! Without conversions a visit only checks: it succeeds where the direct check does and fails
with the same error where it does not. -/

namespace Conform.Model

def outcome {α : Type} (x : Except CheckError α) : Except CheckError Unit := x.map fun _ => ()

section

variable {m : Model} {ts : Transforms}

theorem outcome_bind {α β : Type} {x : Except CheckError α} {f : α → Except CheckError β}
    {y : Except CheckError Unit} {z : Except CheckError Unit} (hx : outcome x = y)
    (hf : ∀ a, x = .ok a → outcome (f a) = z) : outcome (x >>= f) = (do y; z) := by
  subst hx
  cases x with
  | error e => rfl
  | ok a => exact hf a rfl

theorem Plain.tests_eq (plain : m.Plain) (flat : m.Flat) (id : NodeId) :
    m.tests id = m.alternatives id := by
  have hk : ∀ k ∈ m.parts id, k.isTest = (k != .any) := by
    intro k hk
    have hu : k.isUnion = false := by
      unfold parts at hk
      split at hk
      · rename_i members hm
        obtain ⟨x, hx, rfl⟩ := List.mem_map.1 hk
        exact flat id members hm x hx
      · rename_i hne
        rw [List.mem_singleton.1 hk]
        cases h : m.kind id <;> simp_all [NodeKind.isUnion]
    obtain ⟨x, rfl⟩ := exists_kind_of_mem_parts hk
    have := plain x
    cases h : m.kind x <;> simp_all [NodeKind.isTest, NodeKind.isUnion]
  exact List.filter_congr hk

theorem outcome_visitItems {element : NodeId} {path : String} {i : Nat} {items : List Value}
    (ih : ∀ v ∈ items, ∀ path, outcome (m.visit ts element path v) = m.check element path v) :
    outcome (m.visitItems ts element path i items) = m.checkItems element path i items := by
  induction items generalizing i with
  | nil =>
    rw [visitItems, checkItems]
    rfl
  | cons v vs ihv =>
    rw [visitItems, checkItems]
    refine outcome_bind (ih v (by simp) _) fun w _ => ?_
    rw [← ihv fun u hu => ih u (by simp [hu])]
    cases m.visitItems ts element path (i + 1) vs <;> rfl

theorem outcome_visitFields {path : String} {fields : List (String × Value)}
    {members : List (String × NodeId)} {done : List (String × Value)}
    (ih : ∀ name id path, outcome (m.visit ts id path ((Fields.get? name fields).getD .undefined)) =
      m.check id path ((Fields.get? name fields).getD .undefined)) :
    outcome (m.visitFields ts path fields members done) = m.checkFields path fields members := by
  induction members generalizing done with
  | nil =>
    rw [visitFields, checkFields]
    rfl
  | cons member members ihm =>
    rw [visitFields, checkFields]
    exact outcome_bind (ih _ _ _) fun w _ => ihm

theorem outcome_map {α β : Type} (x : Except CheckError α) (f : α → β) :
    outcome (x.map f) = outcome x := by cases x <;> rfl

/-- A visit without conversions comes out as the check does. -/
theorem Plain.outcome_visit (plain : m.Plain) (flat : m.Flat) (id : NodeId) (path : String)
    (v : Value) : outcome (m.visit ts id path v) = m.check id path v := by
  induction hd : v.depth using Nat.strongRecOn generalizing v id path with
  | _ d ih =>
    subst hd
    rw [check.eq_def, ← plain.tests_eq flat]
    cases hf : (m.tests id).find? (·.admits v) with
    | none =>
      rw [visit_none hf, leftover, plain.conversion?]
      dsimp only
      split_ifs <;> rfl
    | some k =>
      have hne : (m.tests id).isEmpty = false := by
        cases h : m.tests id with
        | nil => simp [h] at hf
        | cons => rfl
      rw [if_neg (by simp [hne])]
      obtain ⟨element, items, rfl, rfl⟩ | ⟨record, members, x, rfl, hc, -⟩ | ⟨ha, hr⟩ :=
        tested_cases hf
      · rw [visit_array hf, outcome_map]
        exact outcome_visitItems fun u hu path => ih _ (Value.depth_lt_array hu) _ _ _ rfl
      · rw [visit_record hf, outcome_map, outcome_visitFields fun name id path =>
          ih _ (Value.depth_get_lt hc name) _ _ _ rfl]
        cases v <;> first | rfl | simp [Value.isComposite] at hc
      · rw [visit_leaf hf ha hr]
        cases k with
        | array element =>
          cases element with
          | none => rfl
          | some element => exact absurd rfl (ha element)
        | record record members => exact absurd rfl (hr record members)
        | _ => rfl

/-- Without conversions a value passes as it is or is refused as the check says. -/
theorem Plain.visit_getD (plain : m.Plain) (flat : m.Flat) (id : NodeId) (path : String)
    (v : Value) :
    (m.visit ts id path v).map (fun w => w.getD v) = (m.check id path v).map fun _ => v := by
  have hout : outcome (m.visit ts id path v) = m.check id path v :=
    plain.outcome_visit flat id path v
  rw [← hout]
  cases h : m.visit ts id path v with
  | error e => rfl
  | ok w =>
    have : w.getD v = v := (plain.visit h).getD
    simp only [outcome, Except.map, this]

end

end Conform.Model
