import Conform.Proofs.Model.Alternatives

/-! What a validator makes of a value at a place, read off the model. The first test that holds
decides; where none does, the conversion takes the value, and without one the value is refused.
The result is a value to put into the place, or nothing if the place is left as it is. -/

namespace Conform

namespace Transforms

def apply (ts : Transforms) (n : ConversionId) (v : Value) : Except CheckError Value :=
  match ts.get? n with
  | none => .error (.conversion n "no executable transform registered")
  | some t => match t v with
    | .error message => .error (.conversion n message)
    | .ok w => .ok w

end Transforms

namespace Model

/-- What becomes of a value that no test of a node admits. -/
def leftover (m : Model) (ts : Transforms) (id : NodeId) (path : String) (v : Value) :
    Except CheckError (Option Value) :=
  match m.conversion? id with
  | some n => (ts.apply n v).map some
  | none =>
    if (m.tests id).isEmpty then .ok none
    else .error (.mismatch path (firstOccurrences ((m.tests id).map (·.label))))

mutual

def visit (m : Model) (ts : Transforms) (id : NodeId) (path : String) (v : Value) :
    Except CheckError (Option Value) :=
  match (m.tests id).find? (·.admits v), v with
  | none, _ => m.leftover ts id path v
  | some (.array (some element)), .array items => do
    return some (.array (← m.visitItems ts element path 0 items))
  | some (.record _ members), .object fields => do
    return some (.object (← m.visitFields ts path fields members fields))
  | some (.record _ members), .array _ => do
    let _ ← m.visitFields ts path [] members []
    return none
  | some _, _ => .ok none
termination_by (sizeOf v, 0)
decreasing_by
  · left; simp
  · left; simp
  · left; exact Value.sizeOf_noFields _

/-- The items of an array with what becomes of them, from the one of number `i` on. -/
def visitItems (m : Model) (ts : Transforms) (element : NodeId) (path : String) (i : Nat) :
    List Value → Except CheckError (List Value)
  | [] => .ok []
  | v :: vs => do
    let w ← m.visit ts element (path ++ "[" ++ toString i ++ "]") v
    let ws ← m.visitItems ts element path (i + 1) vs
    return w.getD v :: ws
termination_by vs => (sizeOf vs, 0)

/-- The fields `done` with what becomes of the declared ones among the fields of a value. -/
def visitFields (m : Model) (ts : Transforms) (path : String) (fields : List (String × Value)) :
    List (String × NodeId) → List (String × Value) →
      Except CheckError (List (String × Value))
  | [], done => .ok done
  | (name, id) :: members, done => do
    let w ← m.visit ts id (path ++ "." ++ name) ((Fields.get? name fields).getD .undefined)
    m.visitFields ts path fields members (w.elim done fun w => Fields.put name w done)
termination_by members => (sizeOf fields, members.length + 1)
decreasing_by
  · rcases Nat.lt_or_eq_of_le (Fields.sizeOf_get? fields name) with h | h
    · left; exact h
    · rw [h]; right; omega
  · right; simp

end

end Model

namespace Value

theorem depth_le_items {v : Value} {items : List Value} (h : v ∈ items) :
    v.depth ≤ itemsDepth items := by
  induction items with
  | nil => simp at h
  | cons u us ih =>
    rw [itemsDepth]
    rcases List.mem_cons.1 h with rfl | h
    · omega
    · have := ih h
      omega

theorem depth_le_fields (name : String) (fields : List (String × Value)) :
    ((Fields.get? name fields).getD .undefined).depth ≤ fieldsDepth fields := by
  induction fields with
  | nil => simp [Fields.get?, depth]
  | cons f fs ih =>
    obtain ⟨k, v⟩ := f
    rw [Fields.get?, fieldsDepth]
    split_ifs
    · simp only [Option.getD_some]
      omega
    · omega

theorem depth_lt_array {v : Value} {items : List Value} (h : v ∈ items) :
    v.depth < (Value.array items).depth := by
  have := depth_le_items h
  rw [depth]
  omega

def fields : Value → List (String × Value)
  | .object fields => fields
  | _ => []

theorem depth_get_lt {v : Value} (h : v.isComposite) (name : String) :
    ((Fields.get? name v.fields).getD .undefined).depth < v.depth := by
  have := depth_le_fields name v.fields
  cases v with
  | object fs =>
    rw [depth]
    simp only [fields] at this ⊢
    omega
  | array items => simp [fields, Fields.get?, depth]
  | _ => simp [isComposite] at h

def withFields (v : Value) (fields : List (String × Value)) : Value :=
  match v with
  | .object _ => .object fields
  | v => v

/-- What a record with other fields is to a visit: an array is left as it is. -/
def withFields? (v : Value) (fields : List (String × Value)) : Option Value :=
  match v with
  | .object _ => some (.object fields)
  | _ => none

theorem isComposite_of_admits {k : NodeKind} {v : Value} (h : k.admits v = true)
    (hk : (∃ element, k = .array element) ∨ ∃ record members, k = .record record members) :
    v.isComposite := by
  rcases hk with ⟨element, rfl⟩ | ⟨record, members, rfl⟩ <;> cases v <;>
    simp_all [NodeKind.admits, isArray, isComposite, isNull, tag]

end Value

namespace Model

section

variable {m : Model} {ts : Transforms} {id : NodeId} {path : String}

theorem exists_kind_of_mem_parts {k : NodeKind} (h : k ∈ m.parts id) : ∃ x, k = m.kind x := by
  unfold parts at h
  split at h
  · obtain ⟨x, -, rfl⟩ := List.mem_map.1 h
    exact ⟨x, rfl⟩
  · exact ⟨id, List.mem_singleton.1 h⟩

/-- The first test that a value passes is that of arrays or of a record, or asks for nothing
more. -/
theorem tested_cases {v : Value} {k : NodeKind}
    (h : (m.tests id).find? (·.admits v) = some k) :
    (∃ element items, k = .array (some element) ∧ v = .array items) ∨
      (∃ record members x, k = .record record members ∧ v.isComposite ∧
        m.kind x = .record record members) ∨
      (∀ element, k ≠ .array (some element)) ∧ ∀ record members, k ≠ .record record members := by
  have hadm : k.admits v = true := by simpa using List.find?_some h
  obtain ⟨x, hx⟩ := exists_kind_of_mem_parts (List.mem_filter.1 (List.mem_of_find?_eq_some h)).1
  cases k with
  | array element =>
    cases element with
    | none => exact Or.inr (Or.inr ⟨by simp, by simp⟩)
    | some element =>
      cases v with
      | array items => exact Or.inl ⟨element, items, rfl, rfl⟩
      | _ => simp [NodeKind.admits, Value.isArray] at hadm
  | record record members =>
    have hc := Value.isComposite_of_admits hadm (Or.inr ⟨_, _, rfl⟩)
    exact Or.inr (Or.inl ⟨record, members, x, rfl, hc, hx.symm⟩)
  | _ => exact Or.inr (Or.inr ⟨by simp, by simp⟩)

theorem visit_none {v : Value} (h : (m.tests id).find? (·.admits v) = none) :
    m.visit ts id path v = m.leftover ts id path v := by rw [visit.eq_def, h]

theorem visit_array {items : List Value} {element : NodeId}
    (h : (m.tests id).find? (·.admits (.array items)) = some (.array (some element))) :
    m.visit ts id path (.array items) =
      (m.visitItems ts element path 0 items).map fun ws => some (.array ws) := by
  rw [visit.eq_def, h]
  dsimp only
  cases m.visitItems ts element path 0 items <;> rfl

theorem visit_record {v : Value} {record : RecordId} {members : List (String × NodeId)}
    (h : (m.tests id).find? (·.admits v) = some (.record record members)) :
    m.visit ts id path v =
      (m.visitFields ts path v.fields members v.fields).map v.withFields? := by
  have hadm : (NodeKind.record record members).admits v = true := by simpa using List.find?_some h
  have hc := Value.isComposite_of_admits hadm (Or.inr ⟨_, _, rfl⟩)
  cases v with
  | object fields =>
    rw [visit.eq_def, h]
    dsimp only [Value.fields]
    cases m.visitFields ts path fields members fields <;> rfl
  | array items =>
    rw [visit.eq_def, h]
    dsimp only [Value.fields]
    cases m.visitFields ts path [] members [] <;> rfl
  | _ => simp [Value.isComposite] at hc

theorem visit_leaf {v : Value} {k : NodeKind} (h : (m.tests id).find? (·.admits v) = some k)
    (ha : ∀ element, k ≠ .array (some element)) (hr : ∀ record members, k ≠ .record record members) :
    m.visit ts id path v = .ok none := by
  rw [visit.eq_def, h]
  cases k with
  | array element =>
    cases element with
    | none => rfl
    | some element => exact absurd rfl (ha element)
  | record record members => exact absurd rfl (hr record members)
  | _ => rfl

def Distinct (m : Model) : Prop :=
  ∀ id record members, m.kind id = .record record members → (Fields.names members).Nodup

/-! ### Without conversions -/

def Plain (m : Model) : Prop := ∀ id n, m.kind id ≠ .conversion n

theorem Plain.conversion? (plain : m.Plain) : m.conversion? id = none := by
  rw [Model.conversion?, List.findSome?_eq_none_iff]
  intro k hk
  obtain ⟨x, rfl⟩ := exists_kind_of_mem_parts hk
  have := plain x
  cases h : m.kind x <;> simp_all [NodeKind.conversion?]

/-- Whether a visit left a value as it was. -/
def Kept (v : Value) : Option Value → Prop
  | none => True
  | some w => w = v ∧ v.isComposite

theorem Kept.getD {v : Value} {w : Option Value} (h : Kept v w) : w.getD v = v := by
  cases w with
  | none => rfl
  | some w => exact h.1

theorem Kept.put {name : String} {w : Option Value} {fields : List (String × Value)}
    (h : Kept ((Fields.get? name fields).getD .undefined) w) :
    (w.elim fields fun w => Fields.put name w fields) = fields := by
  cases w with
  | none => rfl
  | some w =>
    obtain ⟨rfl, hc⟩ := h
    cases hf : Fields.get? name fields with
    | none => simp [hf, Value.isComposite] at hc
    | some x => exact Fields.put_get? hf

theorem Plain.visitItems {element : NodeId} {items ws : List Value} {i : Nat}
    (ih : ∀ v ∈ items, ∀ path w, m.visit ts element path v = .ok w → Kept v w)
    (h : m.visitItems ts element path i items = .ok ws) : ws = items := by
  induction items generalizing i ws with
  | nil =>
    rw [Model.visitItems] at h
    exact (Except.ok.inj h).symm
  | cons v vs ihv =>
    rw [Model.visitItems] at h
    obtain ⟨w, hw, h⟩ := bind_eq_ok.1 h
    obtain ⟨us, hus, h⟩ := bind_eq_ok.1 h
    rw [← Except.ok.inj h, (ih v (by simp) _ w hw).getD,
      ihv (fun u hu => ih u (by simp [hu])) hus]

theorem Plain.visitFields {members : List (String × NodeId)} {fields done : List (String × Value)}
    (ih : ∀ name id path w, m.visit ts id path ((Fields.get? name fields).getD .undefined) = .ok w →
      Kept ((Fields.get? name fields).getD .undefined) w)
    (h : m.visitFields ts path fields members fields = .ok done) : done = fields := by
  induction members with
  | nil =>
    rw [Model.visitFields] at h
    exact (Except.ok.inj h).symm
  | cons member members ihm =>
    rw [Model.visitFields] at h
    obtain ⟨w, hw, h⟩ := bind_eq_ok.1 h
    rw [(ih _ _ _ w hw).put] at h
    exact ihm h

/-- Without conversions a visit keeps every value. -/
theorem Plain.visit (plain : m.Plain) {v : Value} {w : Option Value}
    (h : m.visit ts id path v = .ok w) : Kept v w := by
  induction hd : v.depth using Nat.strongRecOn generalizing v id path w with
  | _ d ih =>
    subst hd
    cases hf : (m.tests id).find? (·.admits v) with
    | none =>
      rw [visit_none hf, leftover, plain.conversion?] at h
      dsimp only at h
      split_ifs at h
      obtain rfl := Except.ok.inj h
      trivial
    | some k =>
      obtain ⟨element, items, rfl, rfl⟩ | ⟨record, members, x, rfl, hc, -⟩ | ⟨ha, hr⟩ :=
        tested_cases hf
      · rw [visit_array hf] at h
        obtain ⟨ws, hws, rfl⟩ := map_eq_ok.1 h
        have := visitItems (fun u hu path w hw => ih _ (Value.depth_lt_array hu) hw rfl) hws
        exact ⟨by rw [this], rfl⟩
      · rw [visit_record hf] at h
        obtain ⟨done, hdone, rfl⟩ := map_eq_ok.1 h
        have := visitFields (fun name id path w hw => ih _ (Value.depth_get_lt hc name) hw rfl) hdone
        rw [this]
        cases v <;> simp [Value.withFields?, Kept, Value.fields, Value.isComposite]
      · rw [visit_leaf hf ha hr] at h
        obtain rfl := Except.ok.inj h
        trivial

end

end Model

end Conform
