import Mathlib.Tactic.Common
import Conform.Schema.Table
import Conform.Value

/-! When literals and shapes are one type: when they are the same but for the sign of zeros. -/

namespace Conform

namespace Double

def normal (d : Double) : Double := if d.isZero then zero else d

theorem equal_iff {a b : Double} : a.equal b ↔ a ≠ .nan ∧ a.normal = b.normal := by
  cases a with
  | nan => simp [equal]
  | infinite s =>
    cases b with
    | finite t q =>
      by_cases hq : q.val = 0 <;> simp [equal, normal, isZero, zero, hq]
    | _ => simp [equal, normal, isZero]
  | finite s r =>
    cases b with
    | finite t q =>
      by_cases hr : r.val = 0 <;> by_cases hq : q.val = 0
      · simp [equal, normal, isZero, hr, hq, Fin.ext_iff]
      · have hne : r ≠ q := fun h => hq (h ▸ hr)
        simp [equal, normal, isZero, zero, hr, hq, hne, Fin.ext_iff, Ne.symm hq]
      · have hne : r ≠ q := fun h => hr (h ▸ hq)
        simp [equal, normal, isZero, zero, hr, hq, hne, Fin.ext_iff]
      · simp [equal, normal, isZero, hr, hq, and_comm]
    | _ => by_cases hr : r.val = 0 <;> simp [equal, normal, isZero, zero, hr]

theorem same_iff {a b : Double} : a.same b ↔ a.normal = b.normal := by
  by_cases ha : a = .nan
  · subst ha
    cases b with
    | finite t q => by_cases hq : q.val = 0 <;> simp [same, equal, normal, isZero, zero, hq]
    | _ => simp [same, equal, normal, isZero]
  · have : a.same b = a.equal b := by
      cases a <;> first | rfl | exact absurd rfl ha
    rw [this, equal_iff]
    simp [ha]

end Double

namespace Literal

/-- A literal with one zero in place of both. -/
def normal : Literal → Literal
  | .number d => .number d.normal
  | l => l

theorem same_iff {a b : Literal} : a.same b ↔ a.normal = b.normal := by
  cases a <;> cases b <;> simp [same, normal, Double.same_iff]

end Literal

/-- Scripts have one numeral for both zeros. -/
theorem Numeral.text_normal (d : Double) : script.text d.normal = script.text d := by
  rw [Double.normal]
  split_ifs with hz
  · cases d with
    | finite negative rank =>
      have hr : rank.val = 0 := by simpa [Double.isZero] using hz
      rw [text, text, Double.zero, chars, chars, if_pos rfl, if_pos hr]
      cases negative <;> rfl
    | _ => cases hz
  · rfl

theorem Literal.sourceForm_normal (l : Literal) : l.normal.sourceForm = l.sourceForm := by
  cases l with
  | number d => exact Numeral.text_normal d
  | _ => rfl

/-- A value equals a literal as it equals any other that is the same type. -/
theorem Value.strictEq_of_same {v : Value} {a b : Literal} (h : a.same b) :
    v.strictEq a = v.strictEq b := by
  rw [Literal.same_iff] at h
  cases a <;> cases b <;> simp only [Literal.normal, reduceCtorEq, Literal.number.injEq,
    Literal.string.injEq, Literal.boolean.injEq, Literal.bigint.injEq] at h
  · cases v with
    | number x =>
      rw [Bool.eq_iff_iff]
      simp only [strictEq, Double.equal_iff, h]
    | _ => rfl
  all_goals rw [h]

namespace Shape

def normal : Shape → Shape
  | .literal l => .literal l.normal
  | s => s

/-- Whether an inline shape is found again, as records are not. -/
def isShared : Shape → Bool
  | .record _ | .pending => false
  | _ => true

theorem same_iff {a b : Shape} : a.same b ↔ a.isShared ∧ a.normal = b.normal := by
  cases a <;> cases b <;> simp [same, isShared, normal, Literal.same_iff]

theorem isShared_of_normal {a b : Shape} (h : a.normal = b.normal) : a.isShared = b.isShared := by
  cases a <;> cases b <;> simp_all [isShared, normal]

theorem same_symm {a b : Shape} (h : a.same b) : b.same a := by
  rw [same_iff] at h ⊢
  exact ⟨by rw [← h.1]; exact isShared_of_normal h.2.symm, h.2.symm⟩

theorem same_trans {a b c : Shape} (h : a.same b) (h' : b.same c) : a.same c := by
  rw [same_iff] at h h' ⊢
  exact ⟨h.1, h.2.trans h'.2⟩

end Shape

end Conform
