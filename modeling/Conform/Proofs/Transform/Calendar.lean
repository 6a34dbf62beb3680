import Conform.Proofs.Number.Digits
import Conform.Transform.Calendar

/-! Days that the calendar has, in years however far, and what is kept when the offset of a moment
is taken off. -/

namespace Conform

namespace Date

theorem daysIn_bounds (year : Int) (month : Nat) :
    28 ≤ daysIn year month ∧ daysIn year month ≤ 31 := by
  unfold daysIn
  split_ifs <;> omega

theorem one_le_daysIn (year : Int) (month : Nat) : 1 ≤ daysIn year month :=
  Nat.le_trans (by decide) (daysIn_bounds year month).1

/-- Whether the calendar has a date, in whatever year. -/
structure InCalendar (d : Date) : Prop where
  month_pos : 1 ≤ d.month
  month_le : d.month ≤ 12
  day_pos : 1 ≤ d.day
  day_le : d.day ≤ daysIn d.year d.month

variable {d : Date}

theorem isValid_iff : d.isValid ↔
    (yearLeast ≤ d.year ∧ d.year ≤ yearGreatest) ∧ d.InCalendar := by
  simp only [isValid, Bool.and_eq_true, decide_eq_true_eq]
  constructor
  · rintro ⟨⟨⟨⟨⟨hl, hg⟩, hm⟩, hm'⟩, hd⟩, hd'⟩
    exact ⟨⟨hl, hg⟩, hm, hm', hd, hd'⟩
  · rintro ⟨⟨hl, hg⟩, hm, hm', hd, hd'⟩
    exact ⟨⟨⟨⟨⟨hl, hg⟩, hm⟩, hm'⟩, hd⟩, hd'⟩

theorem InCalendar.next (h : d.InCalendar) : d.next.InCalendar := by
  obtain ⟨hm, hm', hd, -⟩ := h
  unfold Date.next
  split_ifs with hday hmonth
  · exact ⟨hm, hm', Nat.le_add_left 1 _, hday⟩
  · exact ⟨Nat.le_add_left 1 _, hmonth, Nat.le_refl 1, one_le_daysIn _ _⟩
  · exact ⟨Nat.le_refl 1, show 1 ≤ 12 by decide, Nat.le_refl 1, one_le_daysIn _ _⟩

theorem InCalendar.previous (h : d.InCalendar) : d.previous.InCalendar := by
  obtain ⟨hm, hm', -, hd⟩ := h
  unfold Date.previous
  split_ifs with hday hmonth
  · exact ⟨hm, hm', Nat.le_sub_one_of_lt hday, Nat.le_trans (Nat.sub_le _ _) hd⟩
  · exact ⟨Nat.le_sub_one_of_lt hmonth, Nat.le_trans (Nat.sub_le _ _) hm', one_le_daysIn _ _,
      Nat.le_refl _⟩
  · exact ⟨show 1 ≤ 12 by decide, Nat.le_refl 12, show 1 ≤ 31 by decide, Nat.le_refl 31⟩

end Date

namespace Moment

/-- Whether there is such a moment, in whatever year. -/
structure Regular (m : Moment) : Prop where
  date : m.date.InCalendar
  hour : m.hour ≤ 23
  minute : m.minute ≤ 59
  second : m.second ≤ 60
  nano : m.nano < 1000000000

variable {m : Moment}

theorem isValid_iff : m.isValid ↔
    m.date.isValid ∧ m.hour ≤ 23 ∧ m.minute ≤ 59 ∧ m.second ≤ 60 := by
  simp [isValid, and_assoc]

theorem regular_of_isValid (h : m.isValid) (hn : m.nano < 1000000000) : m.Regular := by
  obtain ⟨hd, hh, hm, hs⟩ := isValid_iff.1 h
  exact ⟨(Date.isValid_iff.1 hd).2, hh, hm, hs, hn⟩

theorem Regular.isValid (h : m.Regular) (h₀ : 0 ≤ m.date.year) (h₉ : m.date.year ≤ 9999) :
    m.isValid := by
  have hyear : Date.yearLeast ≤ m.date.year ∧ m.date.year ≤ Date.yearGreatest := by
    unfold Date.yearLeast Date.yearGreatest
    omega
  exact isValid_iff.2 ⟨Date.isValid_iff.2 ⟨hyear, h.date⟩, h.hour, h.minute, h.second⟩

/-- The time of day is one again, and the date is moved by a day at most. -/
theorem Regular.minusMinutes (h : m.Regular) (offset : Int) : (m.minusMinutes offset).Regular := by
  unfold Moment.minusMinutes
  generalize htotal : ((m.hour * 60 + m.minute : Nat) : Int) - offset = total
  have hlt : (total % 1440).toNat < 1440 := by omega
  refine ⟨?_, ?_, ?_, h.second, h.nano⟩
  · dsimp only
    split_ifs
    · exact h.date.previous
    · exact h.date.next
    · exact h.date
  · change (total % 1440).toNat / 60 ≤ 23
    omega
  · change (total % 1440).toNat % 60 ≤ 59
    omega

theorem Regular.minusMinutes_zero (h : m.Regular) : m.minusMinutes 0 = m := by
  have hh := h.hour
  have hm := h.minute
  have htotal : ((m.hour * 60 + m.minute : Nat) : Int) % 1440 = (m.hour * 60 + m.minute : Nat) := by
    omega
  have hhour : (m.hour * 60 + m.minute) / 60 = m.hour := by omega
  have hminute : (m.hour * 60 + m.minute) % 60 = m.minute := by omega
  unfold Moment.minusMinutes
  dsimp only
  rw [if_neg (by omega), if_neg (by omega), Int.sub_zero, htotal, Int.toNat_natCast, hhour, hminute]

/-! ### Written digits -/

variable {width n : Nat}

theorem isDigit_of_mem_padded {c : Char} (h : c ∈ padded width n) : isDigit c := by
  rcases List.mem_append.1 h with h | h
  · rw [List.eq_of_mem_replicate h]
    decide
  · exact isDigit_of_mem_decimalDigits h

@[simp] theorem digitsValue_padded (width n : Nat) : digitsValue (padded width n) = n := by
  rw [padded, digitsValue_append, digitsValue_replicate, digitsValue_decimalDigits, Nat.zero_mul,
    Nat.zero_add]

theorem length_padded (hw : 0 < width) (hn : n < 10 ^ width) : (padded width n).length = width := by
  have hlen : (decimalDigits n).length ≤ width := (Nat.length_toDigits_le_iff (by decide) hw).2 hn
  rw [padded, List.length_append, List.length_replicate]
  omega

theorem padded_ne_nil : padded width n ≠ [] :=
  List.append_ne_nil_of_right_ne_nil _ (decimalDigits_ne_nil n)

end Moment

end Conform
