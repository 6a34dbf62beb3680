import Mathlib.Order.Monotone.Basic
import Mathlib.Tactic.Ring
import Conform.Number.Double

/-! The magnitudes of doubles go up with their ranks. The distance from one to the next is a power
of two, and a magnitude is less than `2 ^ 53` times that distance. -/

namespace Conform.Double

/-- The units from the magnitude of a rank to the next one. -/
def gap (rank : Nat) : Nat := 2 ^ (rank / 2 ^ 52 - 1)

/-- How many gaps a magnitude is. -/
def significand (rank : Nat) : Nat := if rank < 2 ^ 52 then rank else 2 ^ 52 + rank % 2 ^ 52

theorem gap_pos (rank : Nat) : 0 < gap rank := Nat.two_pow_pos _

theorem significand_lt (rank : Nat) : significand rank < 2 ^ 53 := by
  unfold significand
  split <;> omega

theorem units_eq (rank : Nat) : units rank = significand rank * gap rank := by
  unfold units significand gap
  split
  · rename_i h
    rw [Nat.div_eq_of_lt h, Nat.zero_sub, Nat.pow_zero, Nat.mul_one]
  · rfl

theorem units_succ (rank : Nat) : units (rank + 1) = units rank + gap rank := by
  unfold units gap
  rcases Nat.lt_trichotomy (rank + 1) (2 ^ 52) with h | h | h
  · rw [if_pos h, if_pos (by omega), Nat.div_eq_of_lt (by omega), Nat.zero_sub, Nat.pow_zero]
  · obtain rfl : rank = 2 ^ 52 - 1 := by omega
    decide
  · rw [if_neg (by omega), if_neg (by omega)]
    rcases Nat.lt_or_ge (rank % 2 ^ 52 + 1) (2 ^ 52) with hm | hm
    · rw [show (rank + 1) / 2 ^ 52 = rank / 2 ^ 52 by omega,
        show (rank + 1) % 2 ^ 52 = rank % 2 ^ 52 + 1 by omega]
      ring
    · -- the exponent goes up by one
      obtain ⟨e, he⟩ : ∃ e, rank / 2 ^ 52 = e + 1 := ⟨rank / 2 ^ 52 - 1, by omega⟩
      rw [show (rank + 1) / 2 ^ 52 = e + 2 by omega, show (rank + 1) % 2 ^ 52 = 0 by omega, he,
        show rank % 2 ^ 52 = 2 ^ 52 - 1 by omega, Nat.add_sub_cancel,
        show e + 2 - 1 = e + 1 by omega, Nat.pow_succ]
      ring

theorem units_strictMono : StrictMono units :=
  strictMono_nat_of_lt_succ fun rank => by
    rw [units_succ]
    exact Nat.lt_add_of_pos_right (gap_pos rank)

/-- The gaps on both sides of a magnitude are not small beside it. -/
theorem two_mul_units_lt (rank : Nat) :
    2 * units (rank + 1) < 10 ^ 16 * (gap rank + gap (rank + 1)) := by
  rw [units_eq]
  have hpos := gap_pos (rank + 1)
  rcases Nat.eq_or_lt_of_le (Nat.div_le_div_right (c := 2 ^ 52) (Nat.le_succ rank)) with h | h
  · have hgap : gap rank = gap (rank + 1) := by rw [gap, gap, h]
    have hlt := significand_lt (rank + 1)
    rw [hgap]
    generalize gap (rank + 1) = g at hpos
    calc 2 * (significand (rank + 1) * g) = 2 * significand (rank + 1) * g := by ring
      _ < 10 ^ 16 * 2 * g := Nat.mul_lt_mul_of_pos_right (by omega) hpos
      _ = 10 ^ 16 * (g + g) := by ring
  · -- at a power of two the gap below may be half as large
    have hs : significand (rank + 1) = 2 ^ 52 := by
      unfold significand
      split <;> omega
    rw [hs]
    generalize gap (rank + 1) = g at hpos
    calc 2 * (2 ^ 52 * g) = 2 ^ 53 * g := by ring
      _ < 10 ^ 16 * g := Nat.mul_lt_mul_of_pos_right (by decide) hpos
      _ ≤ 10 ^ 16 * (gap rank + g) := Nat.mul_le_mul_left _ (Nat.le_add_left _ _)

end Conform.Double
