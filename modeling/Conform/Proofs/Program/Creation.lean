import Mathlib.Tactic.Common
import Conform.Proofs.Program.Slots

/-! How the slot of a place is found step by step, with or without missing fields being created
on the way. A slot that is found is lawful: what is put into it is what the place reads
afterwards, and places that lead elsewhere read as before. Where there is none, at most one field
has been added, to the first object on the way that lacks the field asked for. -/

namespace Conform

/-- A slot inside a value: what is in it, and what the value is with something else in it. -/
structure Slot where
  content : Value
  fill : Value → Value

/-- What comes of looking for a slot. Where there is none, the value may have changed. -/
inductive Found where
  | slot (s : Slot)
  | missing (left : Value)

def Found.bind (f : Slot → Found) : Found → Found
  | .slot s => f s
  | .missing left => .missing left

def Found.filled (w : Value) : Found → Value
  | .slot s => s.fill w
  | .missing left => left

def Found.content? : Found → Option Value
  | .slot s => some s.content
  | .missing _ => none

/-- One step further in. A field that an object lacks is added as undefined if it may be. -/
def Slot.step (create : Bool) (s : Slot) : Step → Found
  | .field name => match s.content with
    | .object fields => match Fields.get? name fields, create with
      | some x, _ => .slot ⟨x, fun w => s.fill (.object (Fields.put name w fields))⟩
      | none, true => .slot ⟨.undefined, fun w => s.fill (.object (Fields.put name w fields))⟩
      | none, false => .missing (s.fill s.content)
    | _ => .missing (s.fill s.content)
  | .item index => match s.content, index with
    | .array items, some i => match items[i]? with
      | some x => .slot ⟨x, fun w => s.fill (.array (items.set i w))⟩
      | none => .missing (s.fill s.content)
    | _, _ => .missing (s.fill s.content)

/-- Looks for the slot of a place, from the value of the routine inwards. -/
def Place.find (create : Bool) (cs : Counters) (v : Value) : Place → Found
  | .param => .slot ⟨v, id⟩
  | .field base name => (base.find create cs v).bind (·.step create (.field name))
  | .item base depth => (base.find create cs v).bind (·.step create (.item cs[depth]?))

namespace Value

/-- Whether steps lead to an object that has these fields and none of this name. -/
def Lacks (v : Value) (xs : List Step) (name : String) (fields : List (String × Value)) : Prop :=
  v.slot? xs = some (.object fields) ∧ Fields.get? name fields = none

/-- Whether a field that steps go through is missing in an object on the way. -/
def Gap (v : Value) (steps : List Step) : Prop :=
  ∃ xs name fields, xs ++ [.field name] <+: steps ∧ v.Lacks xs name fields

end Value

theorem Value.Lacks.slot?_eq_none {v : Value} {xs : List Step} {name : String}
    {fields : List (String × Value)} (h : v.Lacks xs name fields) (ys : List Step) :
    v.slot? (xs ++ .field name :: ys) = none := by
  rw [Value.slot?_append, h.1]
  simp [Value.slot?, h.2]

/-- What a slot at the end of steps into a value is like. Either it was there, or the last step
is a field that was added. -/
structure Slot.At (s : Slot) (steps : List Step) (v : Value) : Prop where
  back : ∀ w, (s.fill w).slot? steps = some w
  frame : ∀ w ys, ¬ys <+: steps → ¬steps <+: ys → (s.fill w).slot? ys = v.slot? ys
  write : ∀ w ys, Value.write w (steps ++ ys) v = s.fill (Value.write w ys s.content)
  found : (v.slot? steps = some s.content ∧ s.fill s.content = v) ∨
    s.content = .undefined ∧ ∃ xs name fields, steps = xs ++ [.field name] ∧ v.Lacks xs name fields

namespace Slot.At

variable {s : Slot} {steps : List Step} {v : Value}

theorem param (v : Value) : Slot.At ⟨v, id⟩ [] v where
  back _ := rfl
  frame _ _ _ h := absurd List.nil_prefix h
  write _ _ := rfl
  found := .inl ⟨rfl, rfl⟩

theorem slot?_eq (h : s.At steps v) (hs : s.content ≠ .undefined) :
    v.slot? steps = some s.content ∧ s.fill s.content = v :=
  h.found.resolve_right fun hu => hs hu.1

theorem fill_eq (h : s.At steps v) (w : Value) : s.fill w = Value.write w steps v := by
  simpa [Value.write] using (h.write w []).symm

/-- What is put in where steps lead to matters only to what goes through there: a value that
differs from the content in one step alone is not seen by steps that leave elsewhere. -/
theorem frame_step (h : s.At steps v) (hs : s.content ≠ .undefined) {x : Step} {u : Value}
    (hu : ∀ y ys, y ≠ x → u.slot? (y :: ys) = s.content.slot? (y :: ys)) (ys : List Step)
    (hy : ¬ys <+: steps ++ [x]) (hx : ¬steps ++ [x] <+: ys) : (s.fill u).slot? ys = v.slot? ys := by
  by_cases hp : steps <+: ys
  · obtain ⟨zs, rfl⟩ := hp
    rw [Value.slot?_append, Value.slot?_append, h.back, (h.slot?_eq hs).1]
    cases zs with
    | nil => exact absurd (by simp) hy
    | cons z zs => exact hu z zs fun hz => hx (by simp [hz])
  · exact h.frame u ys (fun hq => hy (hq.trans (List.prefix_append _ _))) hp

theorem field (h : s.At steps v) {fields : List (String × Value)} (hs : s.content = .object fields)
    (name : String) :
    Slot.At ⟨(Fields.get? name fields).getD .undefined,
      fun w => s.fill (.object (Fields.put name w fields))⟩ (steps ++ [.field name]) v where
  back w := by
    rw [Value.slot?_append, h.back]
    simp [Value.slot?, Fields.get?_put_self]
  frame w := by
    refine h.frame_step (by simp [hs]) fun y ys hy => ?_
    rw [hs]
    cases y with
    | field other =>
      have hne : other ≠ name := fun hn => hy (by rw [hn])
      simp [Value.slot?, Fields.get?_put_of_ne hne]
    | item index => simp [Value.slot?]
  write w ys := by
    rw [List.append_assoc, h.write, hs]
    rfl
  found := by
    obtain ⟨hv, hf⟩ := h.slot?_eq (by simp [hs])
    rw [hs] at hv hf
    cases hn : Fields.get? name fields with
    | none => exact .inr ⟨rfl, steps, name, fields, rfl, hv, hn⟩
    | some x =>
      refine .inl ⟨by simp [Value.slot?_append, hv, Value.slot?, hn], ?_⟩
      simp [Fields.put_get? hn, hf]

theorem item (h : s.At steps v) {items : List Value} (hs : s.content = .array items) {i : Nat}
    {x : Value} (hi : items[i]? = some x) :
    Slot.At ⟨x, fun w => s.fill (.array (items.set i w))⟩ (steps ++ [.item (some i)]) v where
  back w := by
    rw [Value.slot?_append, h.back]
    simp [Value.slot?, List.getElem?_set_self', hi]
  frame w := by
    refine h.frame_step (by simp [hs]) fun y ys hy => ?_
    rw [hs]
    cases y with
    | field other => simp [Value.slot?]
    | item index =>
      cases index with
      | none => simp [Value.slot?]
      | some j =>
        have hne : i ≠ j := fun hj => hy (by rw [hj])
        simp [Value.slot?, List.getElem?_set_ne hne]
  write w ys := by
    rw [List.append_assoc, h.write, hs]
    simp [Value.write, List.modify_eq_set, hi]
  found := by
    obtain ⟨hv, hf⟩ := h.slot?_eq (by simp [hs])
    rw [hs] at hv hf
    refine .inl ⟨by simp [Value.slot?_append, hv, Value.slot?, hi], ?_⟩
    obtain ⟨hlt, rfl⟩ := List.getElem?_eq_some_iff.1 hi
    simp [hf]

end Slot.At

/-- What looking for a slot along steps into a value comes to. Without a slot, the value is as it
was, or a field was added to the first object that lacked the one it was asked for. -/
inductive Found.At (create : Bool) (steps : List Step) (v : Value) : Found → Prop
  | slot {s : Slot} (h : s.At steps v) (there : create = false → v.slot? steps = some s.content) :
      Found.At create steps v (.slot s)
  | missing {left : Value} (none : v.slot? steps = none)
      (write : create → ∀ w ys, Value.write w (steps ++ ys) v = left)
      (changed : left = v ∨ create ∧ ∃ xs name fields, xs ++ [.field name] <+: steps ∧
        v.Lacks xs name fields ∧
          left = Value.write (.object (Fields.put name .undefined fields)) xs v) :
      Found.At create steps v (.missing left)

section

variable {create : Bool} {s : Slot} {steps : List Step} {v : Value}

/-- Where the content of a slot leads no further, the search ends with what was done so far. -/
theorem Slot.At.stuck (h : s.At steps v) (hc : create = false → v.slot? steps = some s.content)
    {x : Step} (hx : s.content.slot? [x] = none)
    (hw : create → ∀ w ys, Value.write w (x :: ys) s.content = s.content) :
    Found.At create (steps ++ [x]) v (.missing (s.fill s.content)) := by
  refine .missing ?_ (fun hcr w ys => ?_) ?_
  · obtain ⟨hv, -⟩ | ⟨-, xs, name, fields, rfl, hl⟩ := h.found
    · rw [Value.slot?_append, hv]
      exact hx
    · rw [List.append_assoc]
      exact hl.slot?_eq_none [x]
  · rw [List.append_assoc, h.write]
    exact congrArg s.fill (hw hcr w ys)
  · obtain ⟨-, hf⟩ | ⟨hu, xs, name, fields, rfl, hl⟩ := h.found
    · exact .inl hf
    · have hcr : create = true := by
        by_contra hcr
        have hn := hl.slot?_eq_none []
        rw [hc (by simpa using hcr)] at hn
        cases hn
      refine .inr ⟨hcr, xs, name, fields, List.prefix_append _ _, hl, ?_⟩
      rw [h.fill_eq, hu, Value.write_append _ _ hl.1]
      rfl

theorem Slot.At.there {s' : Slot} {x : Step} (hc : create = false → v.slot? steps = some s.content)
    (hx : s.content.slot? [x] = some s'.content) (h' : s'.At (steps ++ [x]) v) :
    Found.At create (steps ++ [x]) v (.slot s') := by
  refine .slot h' fun hcr => ?_
  rw [Value.slot?_append, hc hcr]
  exact hx

theorem Slot.At.step_field (h : s.At steps v) (hc : create = false → v.slot? steps = some s.content)
    (name : String) : (s.step create (.field name)).At create (steps ++ [.field name]) v := by
  cases hs : s.content with
  | object fields =>
    have hf := h.field hs name
    cases hn : Fields.get? name fields with
    | some y =>
      simp only [Slot.step, hs, hn]
      rw [hn] at hf
      exact there hc (by simp [hs, Value.slot?, hn]) hf
    | none =>
      cases create with
      | true =>
        simp only [Slot.step, hs, hn]
        rw [hn] at hf
        exact .slot hf (by simp)
      | false =>
        simp only [Slot.step, hs, hn]
        rw [← hs]
        exact h.stuck hc (by simp [hs, Value.slot?, hn]) (by simp)
  | _ =>
    simp only [Slot.step, hs]
    rw [← hs]
    exact h.stuck hc (by simp [hs, Value.slot?]) fun _ w ys => by simp [hs, Value.write]

theorem Slot.At.step_item (h : s.At steps v) (hc : create = false → v.slot? steps = some s.content)
    (index : Option Nat) : (s.step create (.item index)).At create (steps ++ [.item index]) v := by
  cases hs : s.content with
  | array items =>
    cases index with
    | none =>
      simp only [Slot.step, hs]
      rw [← hs]
      exact h.stuck hc (by simp [hs, Value.slot?]) fun _ w ys => by simp [hs, Value.write]
    | some i =>
      cases hi : items[i]? with
      | some y =>
        simp only [Slot.step, hs, hi]
        exact there hc (by simp [hs, Value.slot?, hi]) (h.item hs hi)
      | none =>
        simp only [Slot.step, hs, hi]
        rw [← hs]
        refine h.stuck hc (by simp [hs, Value.slot?, hi]) fun _ w ys => ?_
        rw [hs, Value.write, List.modify_eq_self (List.getElem?_eq_none_iff.1 hi)]
  | _ =>
    simp only [Slot.step, hs]
    rw [← hs]
    exact h.stuck hc (by simp [hs, Value.slot?]) fun _ w ys => by simp [hs, Value.write]

theorem Slot.At.step (h : s.At steps v) (hc : create = false → v.slot? steps = some s.content)
    (x : Step) : (s.step create x).At create (steps ++ [x]) v := by
  cases x with
  | field name => exact h.step_field hc name
  | item index => exact h.step_item hc index

end

namespace Place

variable {create : Bool} {cs : Counters} {v : Value} {p : Place}

theorem found_bind {steps : List Step} {f : Found} (h : f.At create steps v) (x : Step) :
    (f.bind (·.step create x)).At create (steps ++ [x]) v := by
  cases h with
  | slot h there => exact h.step there x
  | missing none write changed =>
    refine .missing ?_ (fun hcr w ys => ?_) ?_
    · rw [Value.slot?_append, none]
      rfl
    · rw [List.append_assoc]
      exact write hcr w _
    · refine changed.imp_right fun ⟨hcr, xs, name, fields, hp, hl⟩ => ⟨hcr, xs, name, fields, ?_, hl⟩
      exact hp.trans (List.prefix_append _ _)

theorem find_at (create : Bool) (cs : Counters) (v : Value) (p : Place) :
    (p.find create cs v).At create (p.steps cs) v := by
  induction p with
  | param => exact .slot (.param v) fun _ => rfl
  | field base name ih => exact found_bind ih (.field name)
  | item base depth ih => exact found_bind ih (.item cs[depth]?)

/-- Writing to a place is filling the slot that is found when fields may be created. -/
theorem write_eq_find (cs : Counters) (v w : Value) (p : Place) :
    Value.write w (p.steps cs) v = (p.find true cs v).filled w := by
  have h := p.find_at true cs v
  cases hf : p.find true cs v with
  | slot s =>
    rw [hf] at h
    obtain ⟨h, -⟩ := h
    exact (h.fill_eq w).symm
  | missing left =>
    rw [hf] at h
    cases h with
    | missing _ write _ => simpa [Found.filled] using write rfl w []

theorem slot?_eq_find (cs : Counters) (v : Value) (p : Place) :
    v.slot? (p.steps cs) = (p.find false cs v).content? := by
  have h := p.find_at false cs v
  cases hf : p.find false cs v with
  | slot s =>
    rw [hf] at h
    obtain ⟨-, there⟩ := h
    exact there rfl
  | missing left =>
    rw [hf] at h
    cases h with
    | missing none _ _ => exact none

/-! ### What places read -/

def trail (cs : Counters) : Place → List Step
  | .param => []
  | .field base name => base.trail cs ++ [.field name]
  | .item base depth => base.trail cs ++ [.item (some (cs.get depth))]

theorem read_eq_slot? (cs : Counters) (v : Value) (p : Place) :
    p.read cs v = (v.slot? (p.trail cs)).getD .undefined := by
  induction p with
  | param => rfl
  | field base name ih =>
    rw [read, ih, trail, Value.slot?_append]
    cases v.slot? (base.trail cs) with
    | none => rfl
    | some u => cases u <;> simp [Value.get, Value.slot?]
  | item base depth ih =>
    rw [read, ih, trail, Value.slot?_append]
    cases v.slot? (base.trail cs) with
    | none => rfl
    | some u => cases u <;> simp [Value.item, Value.slot?]

theorem steps_eq_trail {u : Value} (h : v.slot? (p.steps cs) = some u) :
    p.steps cs = p.trail cs := by
  induction p generalizing u with
  | param => rfl
  | field base name ih =>
    rw [steps, Value.slot?_append, Option.bind_eq_some_iff] at h
    obtain ⟨x, hx, -⟩ := h
    rw [steps, ih hx, trail]
  | item base depth ih =>
    rw [steps, Value.slot?_append, Option.bind_eq_some_iff] at h
    obtain ⟨x, hx, hu⟩ := h
    obtain ⟨items, i, y, -, hi, -⟩ := Value.slot?_item.1 hu
    rw [steps, ih hx, trail, hi, Counters.get, hi]
    rfl

theorem read_fill {s : Slot} (h : s.At (p.steps cs) v) (w : Value) : p.read cs (s.fill w) = w :=
  read_of_slot? (h.back w)

theorem read_fill_of_apart {s : Slot} (h : s.At (p.steps cs) v) (w : Value) {q : Place}
    (hq : ¬q.trail cs <+: p.trail cs) (hp : ¬p.trail cs <+: q.trail cs) :
    q.read cs (s.fill w) = q.read cs v := by
  rw [← steps_eq_trail (h.back w)] at hq hp
  rw [read_eq_slot?, read_eq_slot?, h.frame w _ hq hp]

/-! ### Where there is no slot -/

theorem ne_of_lacks {xs : List Step} {name : String} {fields : List (String × Value)}
    (h : v.Lacks xs name fields) (u : Value) :
    Value.write (.object (Fields.put name u fields)) xs v ≠ v := by
  intro heq
  have hs := Value.slot?_write (.object (Fields.put name u fields)) h.1
  rw [heq, h.1] at hs
  have hn : Fields.get? name (Fields.put name u fields) = none := by
    rw [← Value.object.inj (Option.some.inj hs)]
    exact h.2
  rw [Fields.get?_put_self] at hn
  cases hn

theorem missing_iff {left : Value} (hf : p.find true cs v = .missing left) :
    left = v ↔ ¬v.Gap (p.steps cs) := by
  have h := p.find_at true cs v
  rw [hf] at h
  cases h with
  | missing none write changed =>
    refine ⟨fun hl ⟨xs, name, fields, ⟨ys, hys⟩, hlacks⟩ => ?_, fun hg => ?_⟩
    · have hw := write rfl .undefined []
      rw [List.append_nil, ← hys, List.append_assoc, Value.write_append _ _ hlacks.1, hl] at hw
      exact ne_of_lacks hlacks _ hw
    · refine changed.resolve_right fun ⟨_, xs, name, fields, hp, hlacks, _⟩ => ?_
      exact hg ⟨xs, name, fields, hp, hlacks⟩

/-- Places are lawful slots, but for fields that are added on the way. What is put into the slot
of a place is what the place reads afterwards, and a place reads as before if neither of the two
leads to the other. Where there is no slot the value is as it was, unless a field that the place
goes through is missing in an object; then this field has been added there. Without leave to add
fields nothing changes, and a slot has in it what the place reads. -/
theorem find_lawful (cs : Counters) (v : Value) (p : Place) :
    (∀ s, p.find true cs v = .slot s → ∀ w, p.read cs (s.fill w) = w ∧
        ∀ q : Place, ¬q.trail cs <+: p.trail cs → ¬p.trail cs <+: q.trail cs →
          q.read cs (s.fill w) = q.read cs v) ∧
      (∀ left, p.find true cs v = .missing left →
        (left = v ↔ ¬v.Gap (p.steps cs)) ∧
          (left = v ∨ ∃ xs name fields, xs ++ [.field name] <+: p.steps cs ∧
            v.Lacks xs name fields ∧
              left = Value.write (.object (Fields.put name .undefined fields)) xs v)) ∧
      (∀ s, p.find false cs v = .slot s → s.fill s.content = v ∧ s.content = p.read cs v) ∧
      (∀ left, p.find false cs v = .missing left → left = v) ∧
      (∀ w, Value.write w (p.steps cs) v = (p.find true cs v).filled w) ∧
      v.slot? (p.steps cs) = (p.find false cs v).content? := by
  have hyes := p.find_at true cs v
  have hno := p.find_at false cs v
  refine ⟨fun s hf w => ?_, fun left hf => ⟨missing_iff hf, ?_⟩, fun s hf => ?_, fun left hf => ?_,
    fun w => write_eq_find cs v w p, slot?_eq_find cs v p⟩
  · rw [hf] at hyes
    obtain ⟨h, -⟩ := hyes
    exact ⟨read_fill h w, fun q hq hp => read_fill_of_apart h w hq hp⟩
  · rw [hf] at hyes
    cases hyes with
    | missing _ _ changed => exact changed.imp_right And.right
  · rw [hf] at hno
    obtain ⟨h, there⟩ := hno
    refine ⟨?_, (read_of_slot? (there rfl)).symm⟩
    rw [h.fill_eq, Value.write_slot (there rfl)]
  · rw [hf] at hno
    cases hno with
    | missing _ _ changed => simpa using changed

theorem find_lawful_fields :
    (field param "b").read [] (.object [("a", .null), ("b", .bool true)]) = .bool true ∧
      (field param "a").read [] (.object [("a", .null), ("b", .bool true)]) = .null ∧
      ¬Value.null.Gap [.field "a"] ∧
      (item param 0).read [0] (.array [.null]) = .null := by
  have hb := find_lawful [] (.object [("a", .null)]) (field param "b")
  have ha := find_lawful [] .null (field param "a")
  have hi := find_lawful [0] (.array [.null]) (item param 0)
  exact ⟨(hb.1 _ rfl (.bool true)).1, (hb.1 _ rfl (.bool true)).2 (field param "a") (by decide)
    (by decide), (ha.2.1 .null rfl).1.1 rfl, ((hi.2.2.1 _ rfl).2).symm⟩

/-- A field stays behind where the next one has no slot: `value.a` in an empty object, when
`value.a.b` is looked for. -/
theorem find_leaves_field : ¬∀ (cs : Counters) (v left : Value) (p : Place),
    p.Within cs.length → p.find true cs v = .missing left → left = v := by
  intro h
  have hl := h [] (.object []) (.object [("a", .undefined)]) (field (field param "a") "b") trivial rfl
  simp at hl

end Place

end Conform
