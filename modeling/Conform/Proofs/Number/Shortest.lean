import Mathlib.Algebra.Order.Field.Power
import Mathlib.Data.Rat.Cast.Order
import Mathlib.Tactic.FieldSimp
import Mathlib.Tactic.Linarith
import Mathlib.Tactic.Positivity
import Conform.Number.Shortest
import Conform.Proofs.Number.Digits
import Conform.Proofs.Number.Units

/-! The shortest decimal of a rank rounds to its magnitude: the grid of seventeen digits is finer
than the interval of numbers that do, so it has a point there if no coarser one has. Intervals of
different ranks have nothing in common, so the decimal tells the rank. -/

namespace Conform

def Decimal.value (d : Decimal) : ℚ := d.digits * 10 ^ d.exponent

@[simp] theorem Decimal.value_trim (n : Nat) (d : Decimal) : (d.trim n).value = d.value := by
  induction n generalizing d with
  | zero => rfl
  | succ n ih =>
    unfold trim
    split
    · rename_i h
      rw [ih]
      have hdigits : d.digits = d.digits / 10 * 10 := by
        have : d.digits % 10 = 0 := by simpa using (Bool.and_eq_true_iff.1 h).2
        omega
      have hcast : (d.digits : ℚ) = (d.digits / 10 : ℕ) * 10 := by exact_mod_cast hdigits
      rw [value, value, hcast, zpow_add_one₀ (by norm_num)]
      ring
    · rfl

namespace Double

/-- Whether a number of units rounds to the magnitude of a rank: it lies between the middles to
the magnitudes beside it, which belong to an even rank. -/
def RoundsTo (rank : Nat) (x : ℚ) : Prop :=
  if rank % 2 = 0 then
    (units (rank - 1) + units rank : ℚ) ≤ 2 * x ∧ 2 * x ≤ units rank + units (rank + 1)
  else (units (rank - 1) + units rank : ℚ) < 2 * x ∧ 2 * x < units rank + units (rank + 1)

theorem RoundsTo.le {rank : Nat} {x : ℚ} (h : RoundsTo rank x) :
    (units (rank - 1) + units rank : ℚ) ≤ 2 * x ∧ 2 * x ≤ units rank + units (rank + 1) := by
  unfold RoundsTo at h
  split at h
  · exact h
  · exact ⟨h.1.le, h.2.le⟩

/-- Whether a number is beyond the interval of a rank is told by the middles alone. -/
theorem le_or_le_of_not_roundsTo {rank : Nat} {x : ℚ} (h : ¬RoundsTo rank x) :
    2 * x ≤ units (rank - 1) + units rank ∨ (units rank + units (rank + 1) : ℚ) ≤ 2 * x := by
  by_contra hne
  obtain ⟨hlow, hhigh⟩ := not_or.1 hne
  rw [not_le] at hlow hhigh
  refine h ?_
  unfold RoundsTo
  split
  · exact ⟨hlow.le, hhigh.le⟩
  · exact ⟨hlow, hhigh⟩

theorem RoundsTo.not_lt {r q : Nat} {x : ℚ} (hr : RoundsTo r x) (hq : RoundsTo q x) : ¬r < q := by
  intro h
  have hlow : units r ≤ units (q - 1) := units_strictMono.monotone (by omega)
  have hlow : (units r : ℚ) ≤ units (q - 1) := by exact_mod_cast hlow
  rcases Nat.eq_or_lt_of_le (Nat.succ_le_of_lt h) with hnext | hfar
  · -- the middle of neighbours belongs to one of them only
    subst hnext
    unfold RoundsTo at hr hq
    rw [Nat.succ_eq_add_one, Nat.add_sub_cancel] at hq
    rcases Nat.mod_two_eq_zero_or_one r with hm | hm
    · rw [if_neg (by omega)] at hq
      rw [if_pos hm] at hr
      linarith [hr.2, hq.1]
    · rw [if_pos (by omega)] at hq
      rw [if_neg (by omega)] at hr
      linarith [hr.2, hq.1]
  · have hhigh : units (r + 1) < units q := units_strictMono hfar
    have hhigh : (units (r + 1) : ℚ) < units q := by exact_mod_cast hhigh
    linarith [hr.le.2, hq.le.1]

theorem RoundsTo.unique {r q : Nat} {x : ℚ} (hr : RoundsTo r x) (hq : RoundsTo q x) : r = q :=
  Nat.le_antisymm (Nat.le_of_not_lt (hq.not_lt hr)) (Nat.le_of_not_lt (hr.not_lt hq))

/-! ### Grids -/

theorem unitScale_pos (e : Int) : (0 : ℚ) < unitScale e := by
  unfold unitScale
  positivity

def unitsInOne : Nat := 2 ^ 1074

theorem unitsInOne_pos : 0 < unitsInOne := by decide +kernel

/-- The units in a step of a grid. -/
def gridStep (e : Int) : ℚ := unitsInOne * 10 ^ e

theorem gridStep_pos (e : Int) : 0 < gridStep e :=
  mul_pos (Nat.cast_pos.2 unitsInOne_pos) (zpow_pos (by norm_num) e)

theorem gridScale_eq (e : Int) : (gridScale e : ℚ) = gridStep e * unitScale e := by
  have hsplit : (10 : ℚ) ^ e.toNat = 10 ^ e * 10 ^ (-e).toNat := by
    rw [← zpow_natCast, ← zpow_natCast, ← zpow_add₀ (by norm_num)]
    congr 1
    omega
  change ((unitsInOne * 10 ^ e.toNat : ℕ) : ℚ) = _
  rw [gridStep, unitScale]
  push_cast
  rw [hsplit]
  ring

theorem readsBack_iff {rank n : Nat} {e : Int} :
    readsBack rank e n = true ↔ RoundsTo rank (n * gridStep e) := by
  have hpos := unitScale_pos e
  have hpoint : ((2 * n * gridScale e : ℕ) : ℚ) = 2 * (n * gridStep e) * unitScale e := by
    push_cast
    rw [gridScale_eq]
    ring
  have hle (m : Nat) : m * unitScale e ≤ 2 * n * gridScale e ↔ (m : ℚ) ≤ 2 * (n * gridStep e) := by
    rw [← Nat.cast_le (α := ℚ), hpoint, Nat.cast_mul, mul_le_mul_iff_left₀ hpos]
  have hge (m : Nat) : 2 * n * gridScale e ≤ m * unitScale e ↔ 2 * (n * gridStep e) ≤ (m : ℚ) := by
    rw [← Nat.cast_le (α := ℚ), hpoint, Nat.cast_mul, mul_le_mul_iff_left₀ hpos]
  unfold readsBack RoundsTo
  split
  · simp only [Bool.and_eq_true, decide_eq_true_eq, hle, hge, Nat.cast_add]
  · simp only [Bool.and_eq_true, decide_eq_true_eq, ← not_le, hle, hge, Nat.cast_add]

/-- The grid point that is picked rounds to the magnitude. -/
theorem roundsTo_of_gridPoint? {tie : Tie} {rank n : Nat} {e : Int}
    (h : gridPoint? tie rank e = some n) : RoundsTo rank (n * gridStep e) := by
  rw [← readsBack_iff]
  unfold gridPoint? at h
  simp only at h
  generalize units rank * unitScale e / gridScale e = below at h
  split at h
  · cases h
  · rename_i hb _
    cases h
    exact hb
  · rename_i _ hb
    cases h
    exact hb
  · rename_i hb hn
    split at h <;> cases h
    · exact hb
    · exact hn
    · exact hn
    · rcases Nat.mod_two_eq_zero_or_one below with hm | hm <;> rw [hm]
      · exact hb
      · exact hn

/-- A grid that is finer than the interval of a magnitude has a point in it. -/
theorem exists_gridPoint (tie : Tie) {rank : Nat} {e : Int}
    (h : 2 * gridStep e < units (rank + 1) - units (rank - 1)) :
    ∃ n, gridPoint? tie rank e = some n := by
  have hpos := unitScale_pos e
  have hscale : 0 < gridScale e := by
    have hcast : (0 : ℚ) < gridScale e := gridScale_eq e ▸ mul_pos (gridStep_pos e) hpos
    exact_mod_cast hcast
  unfold gridPoint?
  simp only
  generalize hbelow : units rank * unitScale e / gridScale e = below
  have hlow : (below * gridStep e : ℚ) ≤ units rank := by
    have hle : below * gridScale e ≤ units rank * unitScale e := hbelow ▸ Nat.div_mul_le_self _ _
    have hle : (below * gridScale e : ℚ) ≤ units rank * unitScale e := by exact_mod_cast hle
    rwa [gridScale_eq, ← mul_assoc, mul_le_mul_iff_left₀ hpos] at hle
  have hhigh : (units rank : ℚ) < (below + 1 : ℕ) * gridStep e := by
    have hlt : units rank * unitScale e < (below + 1) * gridScale e := by
      rw [← hbelow, Nat.mul_comm _ (gridScale e)]
      exact Nat.lt_mul_div_succ _ hscale
    have hlt : (units rank * unitScale e : ℚ) < (below + 1 : ℕ) * gridScale e := by
      exact_mod_cast hlt
    rwa [gridScale_eq, ← mul_assoc, mul_lt_mul_iff_left₀ hpos] at hlt
  split
  · -- the points on both sides would be as far apart as the ends of the interval
    rename_i hb hn
    have hb := le_or_le_of_not_roundsTo (readsBack_iff.not.1 (Bool.eq_false_iff.1 hb))
    have hn := le_or_le_of_not_roundsTo (readsBack_iff.not.1 (Bool.eq_false_iff.1 hn))
    have hup : (units rank : ℚ) < units (rank + 1) := by
      exact_mod_cast units_strictMono (Nat.lt_succ_self rank)
    have hdown : (units (rank - 1) : ℚ) ≤ units rank := by
      exact_mod_cast units_strictMono.monotone (Nat.sub_le rank 1)
    push_cast at hn hhigh
    rcases hb with hb | hb
    · rcases hn with hn | hn <;> linarith
    · linarith
  · exact ⟨_, rfl⟩
  · exact ⟨_, rfl⟩
  · split <;> exact ⟨_, rfl⟩

/-! ### The shortest decimal -/

theorem gridStep_leadingPower_le {rank : Nat} (h : 0 < rank) :
    gridStep (leadingPower rank) ≤ units rank := by
  have hunits : 0 < units rank := Nat.zero_lt_of_lt (units_strictMono h)
  have hreach : unitsInOne ≤ 10 ^ decimalReach := by decide +kernel
  change gridStep ((decimalDigits (units rank * 10 ^ decimalReach / unitsInOne)).length - 1 -
    decimalReach) ≤ _
  generalize hn : units rank * 10 ^ decimalReach / unitsInOne = n
  have hpos : n ≠ 0 := by
    rw [← hn]
    exact (Nat.div_pos (le_trans hreach (Nat.le_mul_of_pos_left _ hunits)) unitsInOne_pos).ne'
  obtain ⟨k, hk⟩ := Nat.exists_eq_add_one_of_ne_zero
    (List.length_pos_of_ne_nil (decimalDigits_ne_nil n)).ne'
  have hle : 10 ^ k * unitsInOne ≤ units rank * 10 ^ decimalReach := by
    calc _ ≤ n * unitsInOne := Nat.mul_le_mul_right _ (pow_le_of_length_decimalDigits hpos hk)
      _ ≤ _ := hn ▸ Nat.div_mul_le_self _ _
  have hle : (10 ^ k * unitsInOne : ℚ) ≤ units rank * 10 ^ decimalReach := by exact_mod_cast hle
  rw [hk, Nat.cast_succ, add_sub_cancel_right, gridStep, zpow_sub₀ (by norm_num), zpow_natCast,
    zpow_natCast, ← mul_div_assoc, div_le_iff₀ (pow_pos (by norm_num) _), mul_comm]
  exact hle

theorem exists_gridPoint_seventeen (tie : Tie) {rank : Nat} (h : 0 < rank) :
    ∃ n, gridPoint? tie rank (leadingPower rank - 16) = some n := by
  obtain ⟨rank, rfl⟩ := Nat.exists_eq_add_one_of_ne_zero h.ne'
  refine exists_gridPoint tie ?_
  have hlead := gridStep_leadingPower_le h
  have hstep : gridStep (leadingPower (rank + 1)) =
      10 ^ 16 * gridStep (leadingPower (rank + 1) - 16) := by
    have hten : (10 : ℚ) ^ leadingPower (rank + 1) =
        10 ^ (leadingPower (rank + 1) - 16) * 10 ^ 16 := by
      rw [← zpow_natCast, ← zpow_add₀ (by norm_num)]
      congr 1
      omega
    rw [gridStep, gridStep, hten]
    ring
  have hgaps : (2 * units (rank + 1) : ℚ) < 10 ^ 16 * (gap rank + gap (rank + 1)) := by
    exact_mod_cast two_mul_units_lt rank
  rw [hstep] at hlead
  rw [units_succ (rank + 1), units_succ rank, Nat.add_sub_cancel]
  rw [units_succ rank] at hlead hgaps
  push_cast at hlead hgaps ⊢
  linarith

theorem roundsTo_shortest (tie : Tie) {rank : Nat} (h : 0 < rank) :
    RoundsTo rank ((shortest tie rank).value * unitsInOne) := by
  obtain ⟨n, hn⟩ := exists_gridPoint_seventeen tie h
  unfold shortest
  simp only [Decimal.value_trim]
  generalize hfind : (List.range 17).findSome? _ = hit
  cases hit with
  | none =>
    have hnone := List.findSome?_eq_none_iff.1 hfind 16 (by simp)
    simp [hn] at hnone
  | some d =>
    obtain ⟨k, -, hd⟩ := List.exists_of_findSome?_eq_some hfind
    obtain ⟨m, hm, rfl⟩ := Option.map_eq_some_iff.1 hd
    have := roundsTo_of_gridPoint? hm
    rwa [gridStep, mul_comm (unitsInOne : ℚ), ← mul_assoc] at this

end Double

end Conform
