import Mathlib.Tactic.Common
import Conform.Program.Place

/-! Slots: what is read, written and left alone along steps into a value. Where a place has a
slot, reading gives what is in it; writing puts a value into the slot and only there, so that
writing back what was read changes nothing. -/

namespace Conform

namespace Fields

variable {α : Type _}

theorem put_get? {key : String} {value : α} {fs : List (String × α)}
    (h : get? key fs = some value) : put key value fs = fs := by
  induction fs with
  | nil => simp [get?] at h
  | cons f fs ih =>
    simp only [get?] at h
    simp only [put]
    split_ifs at h ⊢ with hk
    · obtain rfl := Option.some.inj h
      rw [← hk]
    · rw [ih h]

theorem put_put (key : String) (v w : α) (fs : List (String × α)) :
    put key w (put key v fs) = put key w fs := by
  induction fs with
  | nil => simp [put]
  | cons f fs ih =>
    simp only [put]
    split_ifs with hk
    · simp [put]
    · simp [put, hk, ih]

end Fields

namespace Value

theorem slot?_append (xs ys : List Step) (v : Value) :
    v.slot? (xs ++ ys) = (v.slot? xs).bind (·.slot? ys) := by
  induction xs generalizing v with
  | nil => rfl
  | cons x xs ih =>
    cases x with
    | field name =>
      cases v <;> try rfl
      rename_i fields
      simp only [List.cons_append, slot?]
      cases Fields.get? name fields with
      | none => rfl
      | some u => exact ih u
    | item index =>
      cases v <;> try rfl
      rename_i items
      cases index with
      | none => rfl
      | some i =>
        simp only [List.cons_append, slot?]
        cases items[i]? with
        | none => rfl
        | some u => exact ih u

theorem slot?_field {v u : Value} {name : String} {steps : List Step} :
    v.slot? (.field name :: steps) = some u ↔
      ∃ fields x, v = .object fields ∧ Fields.get? name fields = some x ∧
        x.slot? steps = some u := by
  cases v <;> simp [slot?, Option.bind_eq_some_iff]

theorem slot?_item {v u : Value} {index : Option Nat} {steps : List Step} :
    v.slot? (.item index :: steps) = some u ↔
      ∃ items i x, v = .array items ∧ index = some i ∧ items[i]? = some x ∧
        x.slot? steps = some u := by
  cases v <;> cases index <;> simp [slot?, Option.bind_eq_some_iff]

theorem slot?_write {steps : List Step} {v u : Value} (w : Value)
    (h : v.slot? steps = some u) : (write w steps v).slot? steps = some w := by
  induction steps generalizing v with
  | nil => rfl
  | cons x xs ih =>
    cases x with
    | field name =>
      obtain ⟨fields, y, rfl, hy, hu⟩ := slot?_field.1 h
      refine slot?_field.2 ⟨_, _, rfl, Fields.get?_put_self _ _ _, ?_⟩
      rw [hy]
      exact ih hu
    | item index =>
      obtain ⟨items, i, y, rfl, rfl, hy, hu⟩ := slot?_item.1 h
      exact slot?_item.2 ⟨_, i, write w xs y, rfl, rfl, by simp [hy], ih hu⟩

theorem write_slot {steps : List Step} {v u : Value} (h : v.slot? steps = some u) :
    write u steps v = v := by
  induction steps generalizing v with
  | nil => simpa [slot?, write] using h.symm
  | cons x xs ih =>
    cases x with
    | field name =>
      obtain ⟨fields, y, rfl, hy, hu⟩ := slot?_field.1 h
      simp only [write, hy, Option.getD_some, ih hu, Fields.put_get? hy]
    | item index =>
      obtain ⟨items, i, y, rfl, rfl, hy, hu⟩ := slot?_item.1 h
      simp only [write]
      congr 1
      apply List.ext_getElem?
      intro j
      rw [List.getElem?_modify]
      split_ifs with hj
      · subst hj
        simp [hy, ih hu]
      · simp

/-- A write further down is a write of what it makes of the slot. -/
theorem write_append {xs : List Step} {v u : Value} (w : Value) (ys : List Step)
    (h : v.slot? xs = some u) : write w (xs ++ ys) v = write (write w ys u) xs v := by
  induction xs generalizing v with
  | nil =>
    obtain rfl := Option.some.inj h
    rfl
  | cons x xs ih =>
    cases x with
    | field name =>
      obtain ⟨fields, y, rfl, hy, hu⟩ := slot?_field.1 h
      simp only [List.cons_append, write, hy, Option.getD_some, ih hu]
    | item index =>
      obtain ⟨items, i, y, rfl, rfl, hy, hu⟩ := slot?_item.1 h
      simp only [List.cons_append, write]
      congr 1
      apply List.ext_getElem?
      intro j
      simp only [List.getElem?_modify]
      split_ifs with hj
      · subst hj
        simp [hy, ih hu]
      · rfl

theorem write_write {steps : List Step} {v u : Value} (w x : Value)
    (h : v.slot? steps = some u) : write x steps (write w steps v) = write x steps v := by
  induction steps generalizing v with
  | nil => rfl
  | cons s ss ih =>
    cases s with
    | field name =>
      obtain ⟨fields, y, rfl, hy, hu⟩ := slot?_field.1 h
      simp only [write, Fields.get?_put_self, Option.getD_some, hy, ih hu, Fields.put_put]
    | item index =>
      obtain ⟨items, i, y, rfl, rfl, hy, hu⟩ := slot?_item.1 h
      simp only [write]
      congr 1
      apply List.ext_getElem?
      intro j
      simp only [List.getElem?_modify]
      split_ifs with hj
      · subst hj
        simp [hy, ih hu]
      · simp

/-- Whether a value has parts of its own. -/
def isComposite : Value → Bool
  | .array _ | .object _ => true
  | _ => false

theorem slot?_get {v : Value} {name : String} (h : (v.get name).isComposite) :
    v.slot? [.field name] = some (v.get name) := by
  cases v with
  | object fields =>
    cases hf : Fields.get? name fields with
    | none => simp [get, hf, isComposite] at h
    | some x => simp [slot?, get, hf]
  | _ => simp [get, isComposite] at h

end Value

namespace Counters

/-- Whether counters are the same for all loops around a depth, each of which has one. -/
def Agree (depth : Nat) (cs cs' : Counters) : Prop :=
  ∀ d < depth, ∃ i, cs[d]? = some i ∧ cs'[d]? = some i

theorem Agree.refl {depth : Nat} {cs : Counters} (h : depth ≤ cs.length) :
    Agree depth cs cs := fun d hd => ⟨cs[d], by simp, by simp⟩

theorem Agree.trans {depth : Nat} {a b c : Counters} (h : Agree depth a b)
    (h' : Agree depth b c) : Agree depth a c := by
  intro d hd
  obtain ⟨i, ha, hb⟩ := h d hd
  obtain ⟨j, hb', hc⟩ := h' d hd
  obtain rfl : i = j := Option.some.inj (hb.symm.trans hb')
  exact ⟨i, ha, hc⟩

theorem Agree.mono {m n : Nat} {cs cs' : Counters} (h : Agree n cs cs') (hm : m ≤ n) :
    Agree m cs cs' := fun d hd => h d (by omega)

theorem Agree.length_le {depth : Nat} {cs cs' : Counters} (h : Agree depth cs cs') :
    depth ≤ cs'.length := by
  by_contra hlt
  obtain ⟨i, -, hi⟩ := h cs'.length (by omega)
  simp at hi

theorem Agree.get {depth d : Nat} {cs cs' : Counters} (h : Agree depth cs cs') (hd : d < depth) :
    cs'.get d = cs.get d := by
  obtain ⟨i, hi, hi'⟩ := h d hd
  simp [Counters.get, hi, hi']

theorem Agree.reach {depth : Nat} {cs : Counters} (h : depth ≤ cs.length) :
    Agree depth cs (cs.reach depth) := by
  intro d hd
  refine ⟨cs[d], by simp, ?_⟩
  rw [Counters.reach, List.getElem?_append_left (by omega)]
  simp

theorem Agree.put {depth : Nat} {cs : Counters} (h : depth ≤ cs.length) (i : Nat) :
    Agree depth cs (cs.put depth i) := by
  intro d hd
  refine ⟨cs[d], by simp, ?_⟩
  rw [Counters.put, List.getElem?_set_ne (by omega), List.getElem?_append_left (by omega)]
  simp

theorem getElem?_put {depth : Nat} (cs : Counters) (i : Nat) :
    (cs.put depth i)[depth]? = some i := by
  rw [Counters.put, List.getElem?_set_self]
  simp
  omega

theorem length_le_put {depth : Nat} (cs : Counters) (i : Nat) :
    depth + 1 ≤ (cs.put depth i).length := by
  simp [Counters.put]
  omega

end Counters

namespace Place

/-- Whether a place uses only counters of loops around a depth. -/
def Within (depth : Nat) : Place → Prop
  | .param => True
  | .field base _ => base.Within depth
  | .item base d => base.Within depth ∧ d < depth

theorem Within.mono {m n : Nat} {p : Place} (h : p.Within m) (hm : m ≤ n) : p.Within n := by
  induction p with
  | param => trivial
  | field base name ih => exact ih h
  | item base d ih => exact ⟨ih h.1, by have := h.2; omega⟩

theorem steps_agree {depth : Nat} {cs cs' : Counters} {p : Place} (hp : p.Within depth)
    (h : Counters.Agree depth cs cs') : p.steps cs' = p.steps cs := by
  induction p with
  | param => rfl
  | field base name ih => rw [steps, steps, ih hp]
  | item base d ih =>
    obtain ⟨i, hi, hi'⟩ := h d hp.2
    rw [steps, steps, ih hp.1, hi, hi']

/-- Reading finds what is in the slot. -/
theorem read_of_slot? {cs : Counters} {p : Place} {v u : Value}
    (h : v.slot? (p.steps cs) = some u) : p.read cs v = u := by
  induction p generalizing u with
  | param => exact Option.some.inj h
  | field base name ih =>
    rw [steps, Value.slot?_append, Option.bind_eq_some_iff] at h
    obtain ⟨x, hx, hu⟩ := h
    obtain ⟨fields, y, rfl, hy, hyu⟩ := Value.slot?_field.1 hu
    obtain rfl := Option.some.inj hyu
    simp [read, ih hx, Value.get, hy]
  | item base d ih =>
    rw [steps, Value.slot?_append, Option.bind_eq_some_iff] at h
    obtain ⟨x, hx, hu⟩ := h
    obtain ⟨items, i, y, rfl, hi, hy, hyu⟩ := Value.slot?_item.1 hu
    obtain rfl := Option.some.inj hyu
    simp [read, ih hx, Value.item, Counters.get, hi, hy]

end Place

end Conform
