import Conform.Proofs.Transform.DateText
import Conform.Transform.Builtin

/-! The conversion of dates to timestamps, and what it makes of its own results. -/

namespace Conform

theorem Moment.toList_text (m : Moment) : m.text.toList = m.chars := String.toList_ofList

namespace Builtin

variable {v w : Value} {m : Moment}

theorem isoDateOf_eq_ok : isoDateOf v = .ok w ↔ ∃ s m, v = .string s ∧
    DateText.moment? (Text.trim s.toList) = some m ∧ w = .string m.text := by
  cases v with
  | string s =>
    simp only [isoDateOf]
    cases hm : DateText.moment? (Text.trim s.toList) with
    | none => simp [hm]
    | some m => simp [hm, eq_comm]
  | _ => simp [isoDateOf]

/-- Written timestamps are converted to themselves, unless their years are written with a sign. -/
theorem isoDateOf_text (h : m.Regular) : isoDateOf (.string m.text) =
    if 0 ≤ m.date.year ∧ m.date.year ≤ 9999 then .ok (.string m.text)
    else .error (dateRefusal m.text) := by
  simp only [isoDateOf, m.toList_text, DateText.trim_chars, DateText.moment?_chars h]
  split_ifs
  · rfl
  · rfl

end Builtin

end Conform
