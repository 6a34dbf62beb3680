import Mathlib.Data.List.Forall2
import Mathlib.Tactic.Common
import Conform.Model.Synthesis
import Conform.Program.Run
import Conform.Proofs.Program.Slots

/-! What a node asks of a value, read off the model alone: the alternatives that it stands for,
the test and the label of each, and the check of a value with them. -/

namespace Conform

theorem bind_eq_ok {ε α β : Type _} {x : Except ε α} {f : α → Except ε β} {r : β} :
    (x >>= f) = .ok r ↔ ∃ a, x = .ok a ∧ f a = .ok r := by
  cases x with
  | error e => exact ⟨fun h => (nomatch h), fun ⟨a, h, _⟩ => (nomatch h)⟩
  | ok a => exact ⟨fun h => ⟨a, rfl, h⟩, fun ⟨b, hb, h⟩ => by cases hb; exact h⟩

theorem map_eq_ok {ε α β : Type _} {x : Except ε α} {f : α → β} {r : β} :
    x.map f = .ok r ↔ ∃ a, x = .ok a ∧ f a = r := by
  cases x with
  | error e => exact ⟨fun h => (nomatch h), fun ⟨a, h, _⟩ => (nomatch h)⟩
  | ok a => exact ⟨fun h => ⟨a, rfl, Except.ok.inj h⟩, fun ⟨b, hb, h⟩ => by cases hb; rw [← h]; rfl⟩

theorem bind_eq_error {ε α β : Type _} {x : Except ε α} {f : α → Except ε β} {e : ε} :
    (x >>= f) = .error e ↔ x = .error e ∨ ∃ a, x = .ok a ∧ f a = .error e := by
  cases x <;> simp [bind, Except.bind]

theorem map_eq_error {ε α β : Type _} {x : Except ε α} {f : α → β} {e : ε} :
    x.map f = .error e ↔ x = .error e := by
  cases x <;> simp [Except.map]

theorem mapError_eq_ok {ε ε' α : Type _} {x : Except ε α} {f : ε → ε'} {a : α} :
    x.mapError f = .ok a ↔ x = .ok a := by
  cases x <;> simp [Except.mapError]

theorem mapError_eq_error {ε ε' α : Type _} {x : Except ε α} {f : ε → ε'} {e : ε'} :
    x.mapError f = .error e ↔ ∃ e', x = .error e' ∧ f e' = e := by
  cases x <;> simp [Except.mapError]

theorem exists_of_isOk {ε α : Type _} {x : Except ε α} (h : x.isOk) : ∃ a, x = .ok a := by
  cases x with
  | error e => cases h
  | ok a => exact ⟨a, rfl⟩

theorem eq_error_of_match {ε α : Type _} {x : Except ε α} {e : ε}
    (h : (match x with | .error e => some e | .ok _ => none) = some e) : x = .error e := by
  cases x with
  | error e' => rw [Option.some.inj h]
  | ok a => cases h

section

variable {α β : Type _} {R : α → β → Prop} {as : List α} {bs : List β}

theorem exists_of_mem_left (h : List.Forall₂ R as bs) {a : α} (ha : a ∈ as) :
    ∃ b ∈ bs, R a b := by
  induction h with
  | nil => simp at ha
  | @cons x y xs ys hxy _ ih =>
    rcases List.mem_cons.1 ha with rfl | ha
    · exact ⟨y, by simp, hxy⟩
    · obtain ⟨b, hb, hab⟩ := ih ha
      exact ⟨b, by simp [hb], hab⟩

theorem exists_of_mem_right (h : List.Forall₂ R as bs) {b : β} (hb : b ∈ bs) :
    ∃ a ∈ as, R a b := by
  obtain ⟨a, ha, hab⟩ := exists_of_mem_left h.flip hb
  exact ⟨a, ha, hab⟩

end

namespace NodeKind

/-- Whether a value passes the test of an alternative, which looks at its top only. -/
def admits : NodeKind → Value → Bool
  | .number, v => v.tag == .number
  | .string, v => v.tag == .string
  | .boolean, v => v.tag == .boolean
  | .undefined, v => v.tag == .undefined
  | .bigint, v => v.tag == .bigint
  | .object, v | .record _ _, v => !v.isNull && v.tag == .object
  | .null, v => v.isNull
  | .literal value, v => v.strictEq value
  | .array _, v => v.isArray
  | .any, _ | .union _, _ | .conversion _, _ => false

def label : NodeKind → String
  | .number => "Number"
  | .string => "String"
  | .boolean => "Boolean"
  | .undefined => "Undefined"
  | .bigint => "BigInt"
  | .object | .record _ _ => "Object"
  | .null => "Null"
  | .literal value => value.sourceForm
  | .array _ => "Array"
  | .any | .union _ | .conversion _ => ""

def isTest : NodeKind → Bool
  | .any | .union _ | .conversion _ => false
  | _ => true

def isUnion : NodeKind → Bool
  | .union _ => true
  | _ => false

def isLeaf : NodeKind → Bool
  | .array _ | .union _ | .record _ _ => false
  | _ => true

def conversion? : NodeKind → Option ConversionId
  | .conversion n => some n
  | _ => none

/-- The test of a kind on the value at a place. -/
def test (p : Place) : NodeKind → Test
  | .number => .hasTag p .number
  | .string => .hasTag p .string
  | .boolean => .hasTag p .boolean
  | .undefined => .hasTag p .undefined
  | .bigint => .hasTag p .bigint
  | .object | .record _ _ => .isObject p
  | .null => .isNull p
  | .literal value => .equals p value
  | .array _ => .isArray p
  | .any | .union _ | .conversion _ => .isNull p

theorem holds_test {k : NodeKind} (hk : k.isTest) (s : State) (p : Place) :
    s.holds (k.test p) = k.admits (s.read p) := by
  cases k <;> first | rfl | simp [isTest] at hk

end NodeKind

namespace Model

def kind (m : Model) (id : NodeId) : NodeKind := ((m.node? id).map (·.kind)).getD .any

/-- The kind of a node, or the kinds of the members of a union. -/
def parts (m : Model) (id : NodeId) : List NodeKind :=
  match m.kind id with
  | .union members => members.map m.kind
  | k => [k]

/-- The parts of a node that are not `any`. -/
def alternatives (m : Model) (id : NodeId) : List NodeKind := (m.parts id).filter (· != .any)

/-- The parts of a node that test a value. -/
def tests (m : Model) (id : NodeId) : List NodeKind := (m.parts id).filter (·.isTest)

def conversion? (m : Model) (id : NodeId) : Option ConversionId :=
  (m.parts id).findSome? (·.conversion?)

end Model

theorem Fields.sizeOf_get? (fields : List (String × Value)) (name : String) :
    sizeOf ((Fields.get? name fields).getD .undefined) ≤ sizeOf fields := by
  induction fields with
  | nil => simp [Fields.get?]
  | cons f fs ih =>
    obtain ⟨k, v⟩ := f
    simp only [Fields.get?, List.cons.sizeOf_spec, Prod.mk.sizeOf_spec]
    split_ifs
    · simp only [Option.getD_some]
      omega
    · omega

theorem Value.sizeOf_noFields (items : List Value) :
    sizeOf ([] : List (String × Value)) < sizeOf (Value.array items) := by
  cases items with
  | nil => simp
  | cons v vs =>
    simp only [List.nil.sizeOf_spec, List.cons.sizeOf_spec, Value.array.sizeOf_spec]
    omega

namespace Model

mutual

/-- Checks a value against a node. The first alternative whose test holds decides; without
alternatives everything passes. -/
def check (m : Model) (id : NodeId) (path : String) (v : Value) : Except CheckError Unit :=
  if (m.alternatives id).isEmpty then .ok ()
  else match (m.alternatives id).find? (·.admits v), v with
    | none, _ => .error (.mismatch path (firstOccurrences ((m.alternatives id).map (·.label))))
    | some (.array (some element)), .array items => m.checkItems element path 0 items
    | some (.record _ members), .object fields => m.checkFields path fields members
    | some (.record _ members), .array _ => m.checkFields path [] members
    | some _, _ => .ok ()
termination_by (sizeOf v, 0)
decreasing_by
  · left; simp
  · left; simp
  · left; exact Value.sizeOf_noFields _

/-- Checks the items of an array, of which the first has number `i`. -/
def checkItems (m : Model) (element : NodeId) (path : String) (i : Nat) :
    List Value → Except CheckError Unit
  | [] => .ok ()
  | v :: vs => do
    m.check element (path ++ "[" ++ toString i ++ "]") v
    m.checkItems element path (i + 1) vs
termination_by vs => (sizeOf vs, 0)

def checkFields (m : Model) (path : String) (fields : List (String × Value)) :
    List (String × NodeId) → Except CheckError Unit
  | [] => .ok ()
  | (name, id) :: members => do
    m.check id (path ++ "." ++ name) ((Fields.get? name fields).getD .undefined)
    m.checkFields path fields members
termination_by members => (sizeOf fields, members.length + 1)
decreasing_by
  · rcases Nat.lt_or_eq_of_le (Fields.sizeOf_get? fields name) with h | h
    · left; exact h
    · rw [h]; right; omega
  · right; simp

end

end Model

end Conform
