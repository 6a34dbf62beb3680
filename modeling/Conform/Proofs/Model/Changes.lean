import Conform.Proofs.Model.Endless
import Conform.Proofs.Model.Revisit

/-! What a validator may change of a value. Only conversions change anything: where a chain of
tests ends in one, the result of its transform takes the place of the value, and all else is kept,
the order of fields included. -/

namespace Conform

namespace Fields

variable {α : Type _}

theorem names_put (key : String) (value : α) (fs : List (String × α)) :
    names (put key value fs) =
      if (get? key fs).isSome then names fs else names fs ++ [key] := by
  induction fs with
  | nil => rfl
  | cons f fs ih =>
    by_cases hk : f.1 = key
    · simp [put, get?, names, hk]
    · simp only [names, List.map_cons] at ih ⊢
      simp only [put, get?, hk, if_false, List.map_cons, ih]
      split_ifs <;> rfl

end Fields

namespace Model

def converts (m : Model) (id : NodeId) (v : Value) : Bool :=
  ((m.tests id).find? (·.admits v)).isNone && (m.conversion? id).isSome

/-- The declared fields that an object has not and gets from their conversions. -/
def added (m : Model) (members : List (String × NodeId)) (fields : List (String × Value)) :
    List (String × NodeId) :=
  members.filter fun f => (Fields.get? f.1 fields).isNone && m.converts f.2 .undefined

/-- What a value may have become where it was checked against a node. The first test that admits
the value decides. -/
inductive Changes (m : Model) (ts : Transforms) : NodeId → Value → Value → Prop
  | converted {id : NodeId} {n : ConversionId} {t : Transform} {v w : Value} :
      (m.tests id).find? (·.admits v) = none → m.conversion? id = some n →
      ts.get? n = some t → t v = .ok w → Changes m ts id v w
  | unchecked {id : NodeId} {v : Value} : m.tests id = [] → m.conversion? id = none →
      Changes m ts id v v
  | kept {id : NodeId} {k : NodeKind} {v : Value} :
      (m.tests id).find? (·.admits v) = some k → k.isLeaf → Changes m ts id v v
  | array {id element : NodeId} {items ws : List Value} :
      (m.tests id).find? (·.admits (.array items)) = some (.array (some element)) →
      ws.length = items.length →
      (∀ (i : Nat) v w, items[i]? = some v → ws[i]? = some w → Changes m ts element v w) →
      Changes m ts id (.array items) (.array ws)
  | record {id : NodeId} {r : RecordId} {members : List (String × NodeId)}
      {fields fields' : List (String × Value)} :
      (m.tests id).find? (·.admits (.object fields)) = some (.record r members) →
      Fields.names fields' = Fields.names fields ++ Fields.names (m.added members fields) →
      (∀ name ∉ Fields.names members, Fields.get? name fields' = Fields.get? name fields) →
      (∀ f ∈ members, Changes m ts f.2 ((Value.object fields).get f.1)
        ((Value.object fields').get f.1)) →
      Changes m ts id (.object fields) (.object fields')
  | arrayAsRecord {id : NodeId} {r : RecordId} {members : List (String × NodeId)}
      {items : List Value} :
      (m.tests id).find? (·.admits (.array items)) = some (.record r members) →
      Changes m ts id (.array items) (.array items)

section

variable {m : Model} {ts : Transforms} {id : NodeId} {path : String}

theorem leftover_changes {v : Value} {w : Option Value}
    (hf : (m.tests id).find? (·.admits v) = none) (h : m.leftover ts id path v = .ok w) :
    m.Changes ts id v (w.getD v) := by
  unfold leftover at h
  cases hc : m.conversion? id with
  | none =>
    simp only [hc] at h
    split_ifs at h with hempty
    obtain rfl := Except.ok.inj h
    exact .unchecked (List.isEmpty_iff.1 hempty) hc
  | some n =>
    simp only [hc] at h
    obtain ⟨y, hy, rfl⟩ := map_eq_ok.1 h
    unfold Transforms.apply at hy
    cases ht : ts.get? n with
    | none => simp [ht] at hy
    | some t =>
      cases htv : t v with
      | error message => simp [ht, htv] at hy
      | ok u =>
        obtain rfl : u = y := by simpa [ht, htv] using hy
        exact .converted hf hc ht htv

theorem isSome_visit_undefined {w : Option Value}
    (h : m.visit ts id path .undefined = .ok w) : w.isSome = m.converts id .undefined := by
  unfold converts
  cases hf : (m.tests id).find? (·.admits .undefined) with
  | none =>
    rw [visit_none hf, leftover] at h
    cases hc : m.conversion? id with
    | none =>
      simp only [hc] at h
      split_ifs at h
      obtain rfl := Except.ok.inj h
      rfl
    | some n =>
      simp only [hc] at h
      obtain ⟨y, -, rfl⟩ := map_eq_ok.1 h
      rfl
  | some k =>
    obtain ⟨element, items, -, hv⟩ | ⟨record, members, x, -, hv, -⟩ | ⟨ha, hr⟩ := tested_cases hf
    · cases hv
    · cases hv
    · rw [visit_leaf hf ha hr] at h
      obtain rfl := Except.ok.inj h
      rfl

/-- A visit of fields adds those that conversions make up, in the order of their declaration. -/
theorem names_visitFields {members : List (String × NodeId)}
    {fields done done' : List (String × Value)} (hn : (Fields.names members).Nodup)
    (hdone : ∀ name ∈ Fields.names members,
      (Fields.get? name done).isSome = (Fields.get? name fields).isSome)
    (h : m.visitFields ts path fields members done = .ok done') :
    Fields.names done' = Fields.names done ++ Fields.names (m.added members fields) := by
  induction members generalizing done with
  | nil =>
    rw [visitFields] at h
    obtain rfl := Except.ok.inj h
    simp [added, Fields.names]
  | cons member members ih =>
    obtain ⟨name, id⟩ := member
    rw [Fields.names, List.map_cons, List.nodup_cons] at hn
    rw [visitFields] at h
    obtain ⟨w, hw, h⟩ := bind_eq_ok.1 h
    have hhead := hdone name (by simp [Fields.names])
    have hrest := ih hn.2 (fun other hother => ?_) h
    · rw [hrest]
      cases hf : Fields.get? name fields with
      | some u =>
        -- a field that is there keeps its place
        have hnames : Fields.names (w.elim done fun w => Fields.put name w done) =
            Fields.names done := by
          cases w with
          | none => rfl
          | some w => rw [Option.elim, Fields.names_put, if_pos (by rw [hhead, hf]; rfl)]
        simp [hnames, added, hf]
      | none =>
        rw [hf] at hw hhead
        have hsome := isSome_visit_undefined hw
        cases w with
        | none =>
          have hno : m.converts id .undefined = false := hsome.symm
          simp [added, hf, hno]
        | some w =>
          have hyes : m.converts id .undefined = true := hsome.symm
          rw [Option.elim, Fields.names_put, if_neg (by rw [hhead]; simp)]
          simp [added, hf, hyes, Fields.names]
    · have hne : other ≠ name := by
        rintro rfl
        exact hn.1 hother
      have := hdone other (by
        simp only [Fields.names, List.map_cons, List.mem_cons]
        exact Or.inr hother)
      rw [← this]
      cases w with
      | none => rfl
      | some w => rw [Option.elim, Fields.get?_put_of_ne hne]

theorem visitItems_changes {element : NodeId} {items ws : List Value} {i : Nat}
    (ih : ∀ v ∈ items, ∀ path w, m.visit ts element path v = .ok w →
      m.Changes ts element v (w.getD v))
    (h : m.visitItems ts element path i items = .ok ws) :
    List.Forall₂ (m.Changes ts element) items ws := by
  induction items generalizing i ws with
  | nil =>
    rw [visitItems] at h
    rw [← Except.ok.inj h]
    exact .nil
  | cons v vs ihv =>
    rw [visitItems] at h
    obtain ⟨w, hw, h⟩ := bind_eq_ok.1 h
    obtain ⟨us, hus, h⟩ := bind_eq_ok.1 h
    rw [← Except.ok.inj h]
    exact .cons (ih v (by simp) _ w hw) (ihv (fun u hu => ih u (by simp [hu])) hus)

theorem visitFields_changes {r : RecordId} {members : List (String × NodeId)}
    {fields done : List (String × Value)} (hn : (Fields.names members).Nodup)
    (hf : (m.tests id).find? (·.admits (.object fields)) = some (.record r members))
    (ih : ∀ name id path w,
      m.visit ts id path ((Fields.get? name fields).getD .undefined) = .ok w →
        m.Changes ts id ((Fields.get? name fields).getD .undefined)
          (w.getD ((Fields.get? name fields).getD .undefined)))
    (h : m.visitFields ts path fields members fields = .ok done) :
    m.Changes ts id (.object fields) (.object done) := by
  obtain ⟨hother, hmember⟩ := get?_visitFields hn h
  refine .record hf (names_visitFields hn (fun _ _ => rfl) h) hother fun f hmem => ?_
  obtain ⟨w, hw, hget⟩ := hmember f.1 f.2 hmem
  have hchange := ih f.1 f.2 _ w hw
  have hafter : (Value.object done).get f.1 =
      w.getD ((Fields.get? f.1 fields).getD .undefined) := by
    rw [Value.get, hget]
    cases w <;> rfl
  rw [hafter]
  exact hchange

/-- A visit changes a value only as its node allows. -/
theorem visit_changes (whole : m.Whole) (distinct : m.Distinct) {v : Value} {w : Option Value}
    (h : m.visit ts id path v = .ok w) : m.Changes ts id v (w.getD v) := by
  induction hd : v.depth using Nat.strongRecOn generalizing v id path w with
  | _ d ih =>
    subst hd
    cases hf : (m.tests id).find? (·.admits v) with
    | none =>
      rw [visit_none hf] at h
      exact leftover_changes hf h
    | some k =>
      obtain ⟨element, items, rfl, rfl⟩ | ⟨record, members, x, rfl, hc, hx⟩ | ⟨ha, hr⟩ :=
        tested_cases hf
      · rw [visit_array hf] at h
        obtain ⟨ws, hws, rfl⟩ := map_eq_ok.1 h
        have hall := visitItems_changes
          (fun u hu path w hw => ih _ (Value.depth_lt_array hu) hw rfl) hws
        refine .array hf hall.length_eq.symm fun i v w hv hw => ?_
        obtain ⟨hi, rfl⟩ := List.getElem?_eq_some_iff.1 hv
        obtain ⟨hi', rfl⟩ := List.getElem?_eq_some_iff.1 hw
        exact hall.get hi hi'
      · rw [visit_record hf] at h
        obtain ⟨done, hdone, rfl⟩ := map_eq_ok.1 h
        cases v with
        | object fields =>
          exact visitFields_changes (distinct x _ _ hx) hf
            (fun name id path w hw => ih _ (Value.depth_get_lt hc name) hw rfl) hdone
        | array items => exact .arrayAsRecord hf
        | _ => simp [Value.isComposite] at hc
      · rw [visit_leaf hf ha hr] at h
        obtain rfl := Except.ok.inj h
        refine .kept hf ?_
        have htest : k.isTest := isTest_of_mem_tests k (List.mem_of_find?_eq_some hf)
        obtain ⟨x, hx⟩ :=
          exists_kind_of_mem_parts (List.mem_filter.1 (List.mem_of_find?_eq_some hf)).1
        cases k with
        | array element =>
          cases element with
          | none => exact absurd hx.symm (whole.1 x)
          | some element => exact absurd rfl (ha element)
        | record record members => exact absurd rfl (hr record members)
        | union members => cases htest
        | _ => rfl

end

end Model

end Conform
