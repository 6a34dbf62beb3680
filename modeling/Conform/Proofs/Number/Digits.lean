import Mathlib.Tactic.Ring
import Conform.Number.Decimal

/-! The digits of a number stand for it, and runs of digits side by side for a sum. -/

namespace Conform

theorem digitsValue_eq_ofDigitChars (cs : List Char) :
    digitsValue cs = Nat.ofDigitChars 10 cs 0 := by
  simp only [digitsValue, Nat.ofDigitChars, digitValue, Nat.mul_comm]

@[simp] theorem digitsValue_decimalDigits (n : Nat) : digitsValue (decimalDigits n) = n := by
  rw [digitsValue_eq_ofDigitChars]
  exact Nat.ofDigitChars_toDigits (by decide) (by decide)

theorem digitsValue_singleton (d : Char) : digitsValue [d] = digitValue d := Nat.zero_add _

theorem digitsValue_snoc (ds : List Char) (d : Char) :
    digitsValue (ds ++ [d]) = digitsValue ds * 10 + digitValue d := by
  simp [digitsValue]

theorem digitsValue_append (cs ds : List Char) :
    digitsValue (cs ++ ds) = digitsValue cs * 10 ^ ds.length + digitsValue ds := by
  induction ds generalizing cs with
  | nil => simp [digitsValue]
  | cons d ds ih =>
    have hcons : digitsValue (d :: ds) = digitsValue [d] * 10 ^ ds.length + digitsValue ds := ih [d]
    rw [List.append_cons, ih, digitsValue_snoc, hcons, digitsValue_singleton, List.length_cons,
      Nat.pow_succ]
    ring

@[simp] theorem digitsValue_replicate (n : Nat) : digitsValue (List.replicate n '0') = 0 := by
  induction n with
  | zero => rfl
  | succ n ih =>
    rw [List.replicate_succ', digitsValue_append, ih, Nat.zero_mul, Nat.zero_add]
    rfl

theorem isDigit_iff {c : Char} : isDigit c ↔ 48 ≤ c.toNat ∧ c.toNat ≤ 57 := by
  rw [isDigit, Bool.and_eq_true, decide_eq_true_eq, decide_eq_true_eq]
  exact Iff.rfl

theorem digitValue_lt {c : Char} (h : isDigit c) : digitValue c < 10 := by
  have hle := (isDigit_iff.1 h).2
  have h0 : '0'.toNat = 48 := rfl
  unfold digitValue
  omega

theorem digitsValue_lt {cs : List Char} (h : ∀ c ∈ cs, isDigit c) :
    digitsValue cs < 10 ^ cs.length := by
  induction cs with
  | nil => decide
  | cons c cs ih =>
    obtain ⟨hc, hcs⟩ := List.forall_mem_cons.1 h
    have hle : digitValue c * 10 ^ cs.length ≤ 9 * 10 ^ cs.length :=
      Nat.mul_le_mul_right _ (Nat.le_of_lt_succ (digitValue_lt hc))
    have hrest := ih hcs
    rw [← List.singleton_append, digitsValue_append, digitsValue_singleton, List.singleton_append,
      List.length_cons, Nat.pow_succ]
    omega

theorem decimalDigits_injective : Function.Injective decimalDigits :=
  Function.LeftInverse.injective digitsValue_decimalDigits

theorem decimalDigits_ne_nil (n : Nat) : decimalDigits n ≠ [] :=
  List.ne_nil_of_length_pos Nat.length_toDigits_pos

theorem isDigit_of_mem_decimalDigits {n : Nat} {c : Char} (h : c ∈ decimalDigits n) :
    isDigit c := by
  have hc := Nat.isDigit_of_mem_toDigits (by decide) (by decide) h
  simpa [isDigit, Char.isDigit, Char.le_def] using hc

/-- A number with a digit more than a power of ten has is no less than it. -/
theorem pow_le_of_length_decimalDigits {n k : Nat} (hn : n ≠ 0)
    (h : (decimalDigits n).length = k + 1) : 10 ^ k ≤ n := by
  by_contra hlt
  rcases Nat.eq_zero_or_pos k with rfl | hk
  · omega
  · have := (Nat.length_toDigits_le_iff (by decide) hk).2 (Nat.lt_of_not_le hlt)
    rw [decimalDigits] at h
    omega

@[simp] theorem toList_toString_nat (n : Nat) : (toString n).toList = decimalDigits n := by
  simp [decimalDigits]

end Conform
