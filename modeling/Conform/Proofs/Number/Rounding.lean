import Conform.Proofs.Number.Shortest

/-! Rounding a quotient picks the rank of the magnitude nearest to it: the quotient lies between the
magnitudes of a rank and of the next one, and the middle of these decides. -/

namespace Conform.Double

-- Powers are those of the core library, whatever else is imported.
attribute [local instance (high)] instPowNat

variable {n num den rank : Nat} {x : ℚ}

/-- The rank below a number of units, by what its exponent and its leading digits are. -/
theorem rankBelow_spec (n : Nat) :
    units (rankBelow n) ≤ n ∧ n < units (rankBelow n + 1) := by
  rw [units_succ]
  rcases Nat.lt_or_ge n (2 ^ 52) with h | h
  · -- every number of units is a magnitude
    have hlog : n.log2 - 52 = 0 := by
      rcases Nat.eq_zero_or_pos n with rfl | hn
      · rfl
      · have := (Nat.log2_lt (Nat.ne_of_gt hn)).2 h
        omega
    have hrank : rankBelow n = n := by simp [rankBelow, hlog]
    have hunits : units n = n := if_pos h
    rw [hrank, hunits]
    exact ⟨Nat.le_refl n, Nat.lt_add_of_pos_right (gap_pos n)⟩
  · have hn : n ≠ 0 := by omega
    obtain ⟨e, he⟩ : ∃ e, n.log2 = 52 + e :=
      Nat.exists_eq_add_of_le ((Nat.le_log2 hn).2 h)
    have hlow : 2 ^ 52 * 2 ^ e ≤ n := by
      rw [← Nat.pow_add, ← he]
      exact Nat.log2_self_le hn
    have hhigh : n < 2 ^ 53 * 2 ^ e := by
      have := Nat.lt_log2_self (n := n)
      rw [he] at this
      calc n < 2 ^ (52 + e + 1) := this
        _ = 2 ^ 53 * 2 ^ e := by ring
    have hpos : 0 < 2 ^ e := Nat.two_pow_pos e
    set q := n / 2 ^ e with hq
    have hq52 : 2 ^ 52 ≤ q := (Nat.le_div_iff_mul_le hpos).2 hlow
    have hq53 : q < 2 ^ 53 := (Nat.div_lt_iff_lt_mul hpos).2 hhigh
    have hrank : rankBelow n = e * 2 ^ 52 + q := by
      rw [rankBelow, he, Nat.add_sub_cancel_left]
    have hdiv : (e * 2 ^ 52 + q) / 2 ^ 52 = e + 1 := by omega
    have hsig : significand (e * 2 ^ 52 + q) = q := by
      unfold significand
      split_ifs <;> omega
    have hgap : gap (e * 2 ^ 52 + q) = 2 ^ e := by rw [gap, hdiv, Nat.add_sub_cancel]
    rw [hrank, units_eq, hsig, hgap]
    refine ⟨Nat.div_mul_le_self n _, ?_⟩
    rw [← Nat.succ_mul]
    exact (Nat.div_lt_iff_lt_mul hpos).1 (Nat.lt_succ_self q)

theorem units_pred_le (rank : Nat) : (units (rank - 1) : ℚ) ≤ units rank := by
  exact_mod_cast units_strictMono.monotone (Nat.sub_le rank 1)

theorem units_pred_lt (h : rank % 2 ≠ 0) : (units (rank - 1) : ℚ) < units rank := by
  exact_mod_cast units_strictMono (show rank - 1 < rank by omega)

theorem units_lt_succ (rank : Nat) : (units rank : ℚ) < units (rank + 1) := by
  exact_mod_cast units_strictMono (Nat.lt_succ_self rank)

theorem roundsTo_below (hlow : units rank ≤ x) (h : 2 * x < units rank + units (rank + 1)) :
    RoundsTo rank x := by
  unfold RoundsTo
  split_ifs with heven
  · have := units_pred_le rank
    exact ⟨by linarith, h.le⟩
  · have := units_pred_lt heven
    exact ⟨by linarith, h⟩

theorem roundsTo_above (hhigh : x < units (rank + 1)) (h : units rank + units (rank + 1) < 2 * x) :
    RoundsTo (rank + 1) x := by
  have := units_lt_succ (rank + 1)
  unfold RoundsTo
  rw [Nat.add_sub_cancel]
  split_ifs
  · exact ⟨h.le, by linarith⟩
  · exact ⟨h, by linarith⟩

/-- The middle between two magnitudes belongs to the one of even rank. -/
theorem roundsTo_middle (h : 2 * x = units rank + units (rank + 1)) :
    RoundsTo (rank + rank % 2) x := by
  have hlt := units_lt_succ rank
  have hnext := units_lt_succ (rank + 1)
  unfold RoundsTo
  rw [if_pos (by omega)]
  rcases Nat.mod_two_eq_zero_or_one rank with heven | hodd
  · rw [heven, Nat.add_zero]
    have := units_pred_le rank
    exact ⟨by linarith, h.le⟩
  · rw [hodd, Nat.add_sub_cancel]
    exact ⟨h.ge, by linarith⟩

theorem unitsInOne_eq : unitsInOne = 2 ^ (1074 : Nat) := by decide +kernel

/-- What is nearest to a quotient has the rank that the quotient rounds to. -/
theorem nearest_roundsTo (negative : Bool) (num : Nat) (hd : 0 < den) :
    ∃ rank, nearest negative num den = ofRank negative rank ∧
      RoundsTo rank (num * unitsInOne / den) := by
  -- unfolded as a function, since the kernel would begin to compute with the units of a quotient
  suffices h : ∀ f, f = nearest → ∃ rank, f negative num den = ofRank negative rank ∧
      RoundsTo rank (num * unitsInOne / den) from h nearest rfl
  intro f hf
  delta nearest at hf
  rw [hf, ← unitsInOne_eq, ← Nat.cast_mul]
  clear hf f
  dsimp only
  generalize num * unitsInOne = n
  obtain ⟨hlow, hhigh⟩ := rankBelow_spec (n / den)
  generalize rankBelow (n / den) = below at hlow hhigh
  have hpos : (0 : ℚ) < den := Nat.cast_pos.2 hd
  have hlow : (units below : ℚ) ≤ n / den := by
    rw [le_div_iff₀ hpos]
    exact_mod_cast (Nat.le_div_iff_mul_le hd).1 hlow
  have hhigh : (n / den : ℚ) < units (below + 1) := by
    rw [div_lt_iff₀ hpos]
    exact_mod_cast (Nat.div_lt_iff_lt_mul hd).1 hhigh
  have hdouble : 2 * (n / den : ℚ) = (2 * n : Nat) / den := by
    push_cast
    ring
  have hmiddle : (units below + units (below + 1) : ℚ) =
      ((units below + units (below + 1)) * den : Nat) / den := by
    push_cast
    rw [mul_div_cancel_right₀ _ hpos.ne']
  split
  · rename_i h
    refine ⟨below, rfl, roundsTo_below hlow ?_⟩
    rw [hdouble, hmiddle, div_lt_div_iff_of_pos_right hpos, Nat.cast_lt]
    exact Nat.compare_eq_lt.1 h
  · rename_i h
    refine ⟨below + 1, rfl, roundsTo_above hhigh ?_⟩
    rw [hdouble, hmiddle, div_lt_div_iff_of_pos_right hpos, Nat.cast_lt]
    exact Nat.compare_eq_gt.1 h
  · rename_i h
    refine ⟨below + below % 2, rfl, roundsTo_middle ?_⟩
    rw [hdouble, hmiddle, Nat.compare_eq_eq.1 h]

theorem rankBelow_units (rank : Nat) : rankBelow (units rank) = rank := by
  obtain ⟨hlow, hhigh⟩ := rankBelow_spec (units rank)
  have hle := units_strictMono.le_iff_le.1 hlow
  have hlt := units_strictMono.lt_iff_lt.1 hhigh
  omega

theorem nearest_of_units {n : Nat} (negative : Bool) (rank : Fin rankLimit)
    (h : n * unitsInOne = units rank) : nearest negative n 1 = .finite negative rank := by
  suffices hf : ∀ f, f = nearest → f negative n 1 = .finite negative rank from hf nearest rfl
  intro f hf
  delta nearest at hf
  rw [hf, ← unitsInOne_eq]
  clear hf f
  have hlt : 2 * units rank < (units rank + units (rank + 1)) * 1 := by
    have := units_strictMono (Nat.lt_succ_self rank)
    rw [Nat.succ_eq_add_one] at this
    omega
  dsimp only
  rw [h, Nat.div_one, rankBelow_units, Nat.compare_eq_lt.2 hlt, ofRank, dif_pos rank.isLt]

end Conform.Double
