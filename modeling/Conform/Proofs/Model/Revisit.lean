import Mathlib.Data.List.Nodup
import Conform.Proofs.Model.Visit

/-! Visiting a value again. What a visit made of a value is a value that another visit of the same
node keeps, if the results of transforms are ones that they keep. -/

namespace Conform

/-- Whether transforms keep what they gave, which is no array and no object. -/
def Transforms.Settled (ts : Transforms) : Prop :=
  ∀ n t, ts.get? n = some t → ∀ x y, t x = .ok y → y.isComposite = false ∧ t y = .ok y

theorem Transforms.Settled.apply {ts : Transforms} (h : ts.Settled) {n : ConversionId}
    {x y : Value} (hy : ts.apply n x = .ok y) : y.isComposite = false ∧ ts.apply n y = .ok y := by
  unfold Transforms.apply at hy ⊢
  cases hn : ts.get? n with
  | none => simp [hn] at hy
  | some t =>
    simp only [hn] at hy ⊢
    cases ht : t x with
    | error message => simp [ht] at hy
    | ok w =>
      obtain rfl : w = y := by simpa [ht] using hy
      obtain ⟨hc, hw⟩ := h n t hn x w ht
      exact ⟨hc, by rw [hw]⟩

namespace NodeKind

theorem admits_array (k : NodeKind) (items items' : List Value) :
    k.admits (.array items) = k.admits (.array items') := by
  cases k <;> rfl

theorem admits_object (k : NodeKind) (fields fields' : List (String × Value)) :
    k.admits (.object fields) = k.admits (.object fields') := by
  cases k <;> rfl

end NodeKind

namespace Model

variable {m : Model} {ts : Transforms} {id : NodeId} {path : String}

/-- Whether a visit keeps a value that an earlier one gave, if that gave any. -/
def Again (m : Model) (ts : Transforms) (id : NodeId) (path : String) : Option Value → Prop
  | none => True
  | some u => ∃ w, m.visit ts id path u = .ok w ∧ w.getD u = u

theorem Again.keeps {v : Value} {w : Option Value} (hv : m.visit ts id path v = .ok w)
    (h : m.Again ts id path w) :
    ∃ w', m.visit ts id path (w.getD v) = .ok w' ∧ w'.getD (w.getD v) = w.getD v := by
  cases w with
  | some u => exact h
  | none => exact ⟨none, hv, rfl⟩

theorem visitItems_again {element : NodeId} {items ws : List Value} {i : Nat}
    (ih : ∀ v ∈ items, ∀ path w, m.visit ts element path v = .ok w → m.Again ts element path w)
    (h : m.visitItems ts element path i items = .ok ws) :
    m.visitItems ts element path i ws = .ok ws := by
  induction items generalizing i ws with
  | nil =>
    rw [visitItems] at h
    rw [← Except.ok.inj h, visitItems]
  | cons v vs ihv =>
    rw [visitItems] at h
    obtain ⟨w, hw, h⟩ := bind_eq_ok.1 h
    obtain ⟨us, hus, h⟩ := bind_eq_ok.1 h
    obtain rfl := Except.ok.inj h
    obtain ⟨w', hw', hkeep⟩ := (ih v (by simp) _ w hw).keeps hw
    rw [visitItems, hw', ihv (fun u hu => ih u (by simp [hu])) hus]
    simp only [bind, Except.bind, hkeep]
    rfl

theorem get?_visitFields {members : List (String × NodeId)} {fields done done' : List (String × Value)}
    (hn : (Fields.names members).Nodup)
    (h : m.visitFields ts path fields members done = .ok done') :
    (∀ name, name ∉ Fields.names members → Fields.get? name done' = Fields.get? name done) ∧
      ∀ name id, (name, id) ∈ members → ∃ w,
        m.visit ts id (path ++ "." ++ name) ((Fields.get? name fields).getD .undefined) = .ok w ∧
          Fields.get? name done' = w.or (Fields.get? name done) := by
  induction members generalizing done with
  | nil =>
    rw [visitFields] at h
    obtain rfl := Except.ok.inj h
    exact ⟨fun _ _ => rfl, by simp⟩
  | cons member members ih =>
    obtain ⟨name, id⟩ := member
    rw [Fields.names, List.map_cons, List.nodup_cons] at hn
    rw [visitFields] at h
    obtain ⟨w, hw, h⟩ := bind_eq_ok.1 h
    obtain ⟨hother, hmember⟩ := ih hn.2 h
    have hput : ∀ other, other ≠ name →
        Fields.get? other (w.elim done fun w => Fields.put name w done) =
          Fields.get? other done := by
      intro other hne
      cases w with
      | none => rfl
      | some w => exact Fields.get?_put_of_ne hne w done
    refine ⟨?_, ?_⟩
    · intro other hnot
      rw [Fields.names, List.map_cons, List.mem_cons, not_or] at hnot
      rw [hother other hnot.2, hput other hnot.1]
    · intro other oid hmem
      rcases List.mem_cons.1 hmem with he | hmem
      · obtain ⟨rfl, rfl⟩ := Prod.mk.inj he
        refine ⟨w, hw, ?_⟩
        rw [hother _ hn.1]
        cases w with
        | none => rfl
        | some w => exact Fields.get?_put_self _ w done
      · have hne : other ≠ name := fun he => hn.1 (List.mem_map.2 ⟨_, hmem, he⟩)
        obtain ⟨u, hu, hget⟩ := hmember other oid hmem
        exact ⟨u, hu, by rw [hget, hput other hne]⟩

/-- Fields whose visits put back what is there, if anything, stay as they are. -/
theorem visitFields_keeps {members : List (String × NodeId)} {fields : List (String × Value)}
    (h : ∀ name id, (name, id) ∈ members → ∃ w,
      m.visit ts id (path ++ "." ++ name) ((Fields.get? name fields).getD .undefined) = .ok w ∧
        ∀ u, w = some u → Fields.get? name fields = some u) :
    m.visitFields ts path fields members fields = .ok fields := by
  induction members with
  | nil => rw [visitFields]
  | cons member members ih =>
    obtain ⟨name, id⟩ := member
    obtain ⟨w, hw, hput⟩ := h name id (by simp)
    have hsame : (w.elim fields fun w => Fields.put name w fields) = fields := by
      cases w with
      | none => rfl
      | some u => exact Fields.put_get? (hput u rfl)
    rw [visitFields, hw]
    simp only [bind, Except.bind, hsame]
    exact ih fun name id hmem => h name id (by simp [hmem])

theorem visitFields_again {members : List (String × NodeId)} {fields done : List (String × Value)}
    (hn : (Fields.names members).Nodup)
    (ih : ∀ name id path w,
      m.visit ts id path ((Fields.get? name fields).getD .undefined) = .ok w →
        m.Again ts id path w)
    (h : m.visitFields ts path fields members fields = .ok done) :
    m.visitFields ts path done members done = .ok done := by
  obtain ⟨-, hmember⟩ := get?_visitFields hn h
  refine visitFields_keeps fun name id hmem => ?_
  obtain ⟨w, hw, hget⟩ := hmember name id hmem
  cases w with
  | none =>
    -- the field is as it was, and so is what becomes of it
    refine ⟨none, ?_, by simp⟩
    rw [hget]
    exact hw
  | some u =>
    have hget : Fields.get? name done = some u := hget
    obtain ⟨w', hw', hkeep⟩ := (ih name id _ _ hw).keeps hw
    rw [hget]
    refine ⟨w', hw', ?_⟩
    rintro u' rfl
    exact congrArg some hkeep.symm

theorem again_leftover (hts : ts.Settled) {v : Value} {w : Option Value}
    (hf : (m.tests id).find? (·.admits v) = none) (h : m.visit ts id path v = .ok w) :
    m.Again ts id path w := by
  rw [visit_none hf, leftover] at h
  cases hc : m.conversion? id with
  | none =>
    simp only [hc] at h
    split_ifs at h
    rw [← Except.ok.inj h]
    trivial
  | some n =>
    simp only [hc] at h
    obtain ⟨y, hy, rfl⟩ := map_eq_ok.1 h
    obtain ⟨hcomp, hagain⟩ := hts.apply hy
    cases hf' : (m.tests id).find? (·.admits y) with
    | none =>
      refine ⟨some y, ?_, rfl⟩
      rw [visit_none hf', leftover, hc]
      simp only [hagain]
      rfl
    | some k =>
      -- the test of an array or a record would admit arrays and objects only
      have hadm : k.admits y = true := by simpa using List.find?_some hf'
      have hno : ∀ {p : Prop}, ((∃ element, k = .array element) ∨
          ∃ record members, k = .record record members) → p := by
        intro p hk
        have := Value.isComposite_of_admits hadm hk
        simp [hcomp] at this
      refine ⟨none, visit_leaf hf' (fun e he => hno (Or.inl ⟨_, he⟩)) fun r ms he =>
        hno (Or.inr ⟨_, _, he⟩), rfl⟩

theorem again_array {element : NodeId} {items : List Value} {w : Option Value}
    (hf : (m.tests id).find? (·.admits (.array items)) = some (.array (some element)))
    (ih : ∀ u ∈ items, ∀ path w, m.visit ts element path u = .ok w → m.Again ts element path w)
    (h : m.visit ts id path (.array items) = .ok w) : m.Again ts id path w := by
  rw [visit_array hf] at h
  obtain ⟨ws, hws, rfl⟩ := map_eq_ok.1 h
  refine ⟨some (.array ws), ?_, rfl⟩
  have hf' : (m.tests id).find? (·.admits (.array ws)) = some (.array (some element)) := by
    rw [← hf]
    exact congrArg (List.find? · _) (funext fun k => k.admits_array ws items)
  rw [visit_array hf', visitItems_again ih hws]
  rfl

theorem again_record {record : RecordId} {members : List (String × NodeId)} {v : Value}
    {w : Option Value} (hf : (m.tests id).find? (·.admits v) = some (.record record members))
    (hn : (Fields.names members).Nodup)
    (ih : ∀ name id path w,
      m.visit ts id path ((Fields.get? name v.fields).getD .undefined) = .ok w →
        m.Again ts id path w)
    (h : m.visit ts id path v = .ok w) : m.Again ts id path w := by
  rw [visit_record hf] at h
  obtain ⟨done, hdone, rfl⟩ := map_eq_ok.1 h
  cases v with
  | object fields =>
    refine ⟨some (.object done), ?_, rfl⟩
    have hf' : (m.tests id).find? (·.admits (.object done)) =
        some (.record record members) := by
      rw [← hf]
      exact congrArg (List.find? · _) (funext fun k => k.admits_object done fields)
    rw [visit_record hf', Value.fields, visitFields_again hn ih hdone]
    rfl
  | _ => trivial

/-- A value that was visited is kept by the next visit. -/
theorem visit_again (hts : ts.Settled) (distinct : m.Distinct) {v : Value} {w : Option Value}
    (h : m.visit ts id path v = .ok w) : m.Again ts id path w := by
  induction hd : v.depth using Nat.strongRecOn generalizing v id path w with
  | _ d ih =>
    subst hd
    cases hf : (m.tests id).find? (·.admits v) with
    | none => exact again_leftover hts hf h
    | some k =>
      obtain ⟨element, items, rfl, rfl⟩ | ⟨record, members, x, rfl, hc, hx⟩ | ⟨ha, hr⟩ :=
        tested_cases hf
      · exact again_array hf (fun u hu path w hw => ih _ (Value.depth_lt_array hu) hw rfl) h
      · exact again_record hf (distinct x _ _ hx)
          (fun name id path w hw => ih _ (Value.depth_get_lt hc name) hw rfl) h
      · rw [visit_leaf hf ha hr] at h
        rw [← Except.ok.inj h]
        trivial

end Model

end Conform
