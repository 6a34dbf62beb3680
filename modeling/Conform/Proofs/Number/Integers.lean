import Mathlib.Data.List.Basic
import Mathlib.Data.List.Induction
import Mathlib.Data.List.TakeWhile
import Mathlib.Tactic.IntervalCases
import Conform.Literal
import Conform.Proofs.Number.Digits
import Conform.Proofs.Text.Blank

/-! Integers as text. What is read between blanks is an optional minus, digits and an optional
suffix; the digits that an integer is written with are those that were read, without the zeros in
front of them. -/

namespace Conform

/-- Digits from the first on that is not zero, and one zero if there is none. -/
def significant (ds : List Char) : List Char :=
  match ds.dropWhile (· == '0') with
  | [] => ['0']
  | rest => rest

theorem significant_append (ds : List Char) (d : Char) : significant (ds ++ [d]) =
    if ds.dropWhile (· == '0') = [] then [d] else significant ds ++ [d] := by
  unfold significant
  rw [List.dropWhile_append]
  cases hds : ds.dropWhile (· == '0') with
  | nil =>
    by_cases hd : d = '0'
    · simp [hd]
    · simp [hd]
  | cons c cs => simp

theorem dropWhile_zero_eq_nil {ds : List Char} (hds : ∀ c ∈ ds, isDigit c) :
    ds.dropWhile (· == '0') = [] ↔ digitsValue ds = 0 := by
  rw [List.dropWhile_eq_nil_iff]
  induction ds using List.reverseRecOn with
  | nil => simp [digitsValue]
  | append_singleton ds d ih =>
    have hd := isDigit_iff.1 (hds d (by simp))
    have hzero : (d == '0') = true ↔ digitValue d = 0 := by
      rw [beq_iff_eq, Char.ext_iff, ← UInt32.toNat_inj]
      change d.toNat = 48 ↔ d.toNat - 48 = 0
      omega
    rw [digitsValue_snoc, List.forall_mem_append, ih fun c hc => hds c (by simp [hc]),
      List.forall_mem_singleton, hzero]
    omega

theorem digitChar_digitValue {c : Char} (h : isDigit c) : Nat.digitChar (digitValue c) = c := by
  have hc := isDigit_iff.1 h
  rw [← Char.ofNat_toNat c]
  generalize c.toNat = n at hc
  obtain ⟨hlow, hhigh⟩ := hc
  interval_cases n <;> rfl

theorem decimalDigits_of_lt {n : Nat} (h : n < 10) : decimalDigits n = [Nat.digitChar n] :=
  Nat.toDigits_of_lt_base h

theorem decimalDigits_digitsValue {ds : List Char} (hds : ∀ c ∈ ds, isDigit c) :
    decimalDigits (digitsValue ds) = significant ds := by
  induction ds using List.reverseRecOn with
  | nil => rfl
  | append_singleton ds d ih =>
    have hd : isDigit d := hds d (by simp)
    have hds' : ∀ c ∈ ds, isDigit c := fun c hc => hds c (by simp [hc])
    have hlt := digitValue_lt hd
    rw [significant_append, digitsValue_snoc]
    split_ifs with hz
    · rw [(dropWhile_zero_eq_nil hds').1 hz, Nat.zero_mul, Nat.zero_add, decimalDigits_of_lt hlt,
        digitChar_digitValue hd]
    · have hpos : digitsValue ds ≠ 0 := fun h => hz ((dropWhile_zero_eq_nil hds').2 h)
      have hbase : 10 ≤ digitsValue ds * 10 + digitValue d := by omega
      have hdiv : (digitsValue ds * 10 + digitValue d) / 10 = digitsValue ds := by omega
      have hmod : (digitsValue ds * 10 + digitValue d) % 10 = digitValue d := by omega
      rw [decimalDigits, Nat.toDigits_of_base_le (by decide) hbase, hdiv, hmod,
        digitChar_digitValue hd]
      exact congrArg (· ++ [d]) (ih hds')

theorem significant_eq_zero {ds : List Char} (hds : ∀ c ∈ ds, isDigit c) :
    significant ds = ['0'] ↔ digitsValue ds = 0 := by
  have hzero : decimalDigits 0 = ['0'] := rfl
  rw [← decimalDigits_digitsValue hds, ← hzero, decimalDigits_injective.eq_iff]

theorem head?_decimalDigits {n : Nat} (h : (decimalDigits n).head? = some '0') : n = 0 := by
  have hds : ∀ c ∈ decimalDigits n, isDigit c := fun _ => isDigit_of_mem_decimalDigits
  have heq := decimalDigits_digitsValue hds
  rw [digitsValue_decimalDigits] at heq
  unfold significant at heq
  split at heq
  · exact decimalDigits_injective heq
  · rename_i rest hrest
    have hnot := List.head?_dropWhile_not (· == '0') (decimalDigits n)
    rw [← heq, h] at hnot
    simp at hnot

namespace BigInt

/-- Whether a text is an integer with this sign and these digits: an optional minus, digits and an
optional suffix. -/
def Written (cs : List Char) (negative : Bool) (ds : List Char) : Prop :=
  ds ≠ [] ∧ (∀ c ∈ ds, isDigit c) ∧
    ∃ suffix ∈ [[], ['n']], cs = Numeral.signed negative ds ++ suffix

/-- The integer that a sign and digits stand for. -/
def integer (negative : Bool) (ds : List Char) : Int :=
  if negative then -(digitsValue ds : Int) else digitsValue ds

/-- Whether a text is that of an integer, between blanks. -/
def Denotes (s : String) (i : Int) : Prop :=
  ∃ negative ds, Written (Text.trim s.toList) negative ds ∧ i = integer negative ds

/-- A sign and digits, as which a big integer is kept. -/
structure SignedDigits where
  negative : Bool
  digits : String
  deriving DecidableEq, Repr

def SignedDigits.text (n : SignedDigits) : String :=
  (if n.negative then "-" else "") ++ n.digits ++ "n"

/-- The sign and the digits of an integer. Zero has no sign. -/
def signedDigits (i : Int) : SignedDigits := ⟨i < 0, digits i⟩

variable {cs ds : List Char} {negative : Bool} {s : String} {i j : Int}

theorem signed?_signed (hne : ds ≠ []) (hds : ∀ c ∈ ds, isDigit c) :
    signed? (Numeral.signed negative ds) = some (integer negative ds) := by
  have hempty : ds.isEmpty = false := by simpa using hne
  have hall : ds.all isDigit = true := List.all_eq_true.2 hds
  cases negative with
  | true => simp [Numeral.signed, signed?, integer, hempty, hall]
  | false =>
    change signed? ds = some (digitsValue ds : Int)
    unfold signed?
    split
    · -- no digit is a minus
      have := hds '-' List.mem_cons_self
      cases this
    · simp [hempty, hall]

theorem exists_of_signed? (h : signed? cs = some i) : ∃ negative ds,
    ds ≠ [] ∧ (∀ c ∈ ds, isDigit c) ∧ cs = Numeral.signed negative ds ∧
      i = integer negative ds := by
  unfold signed? at h
  have hdigits (ds : List Char) (hds : ¬(ds.isEmpty || !ds.all isDigit) = true) :
      ds ≠ [] ∧ ∀ c ∈ ds, isDigit c := by
    simpa [not_or] using hds
  split at h
  · rename_i ds
    split_ifs at h with hds
    obtain ⟨hne, hds⟩ := hdigits ds hds
    exact ⟨true, ds, hne, hds, rfl, (Option.some.inj h).symm⟩
  · split_ifs at h with hds
    obtain ⟨hne, hds⟩ := hdigits cs hds
    exact ⟨false, cs, hne, hds, rfl, (Option.some.inj h).symm⟩

theorem getLast?_signed (hne : ds ≠ []) (hds : ∀ c ∈ ds, isDigit c) :
    (Numeral.signed negative ds).getLast? ≠ some 'n' := by
  intro h
  have hlast : (Numeral.signed negative ds).getLast? = ds.getLast? := by
    obtain ⟨d, ds, rfl⟩ := List.exists_cons_of_ne_nil hne
    cases negative <;> rfl
  have := hds 'n' (List.mem_of_getLast? (hlast ▸ h))
  cases this

theorem dropSuffix_written (h : Written cs negative ds) :
    dropSuffix cs = Numeral.signed negative ds := by
  obtain ⟨hne, hds, suffix, hsuffix, rfl⟩ := h
  simp only [List.mem_cons, List.not_mem_nil, or_false] at hsuffix
  rcases hsuffix with rfl | rfl
  · rw [List.append_nil, dropSuffix, if_neg (getLast?_signed hne hds)]
  · simp [dropSuffix]

theorem exists_suffix (cs : List Char) : ∃ suffix ∈ [[], ['n']], cs = dropSuffix cs ++ suffix := by
  unfold dropSuffix
  split_ifs with h
  · refine ⟨['n'], by simp, ?_⟩
    exact (List.dropLast_append_getLast? _ h).symm
  · exact ⟨[], by simp, by simp⟩

/-- An integer is read from a text exactly if the text is that of the integer. -/
theorem parse?_eq_some : parse? s = some i ↔ Denotes s i := by
  unfold parse?
  constructor
  · intro h
    obtain ⟨negative, ds, hne, hds, hcs, hi⟩ := exists_of_signed? h
    obtain ⟨suffix, hsuffix, htrim⟩ := exists_suffix (Text.trim s.toList)
    exact ⟨negative, ds, ⟨hne, hds, suffix, hsuffix, hcs ▸ htrim⟩, hi⟩
  · rintro ⟨negative, ds, hw, rfl⟩
    rw [dropSuffix_written hw, signed?_signed hw.1 hw.2.1]

theorem digits_integer (hds : ∀ c ∈ ds, isDigit c) :
    (digits (integer negative ds)).toList = significant ds := by
  have habs : (integer negative ds).natAbs = digitsValue ds := by cases negative <;> simp [integer]
  rw [digits, String.toList_ofList, habs, decimalDigits_digitsValue hds]

theorem integer_neg_iff (hds : ∀ c ∈ ds, isDigit c) :
    integer negative ds < 0 ↔ negative = true ∧ significant ds ≠ ['0'] := by
  rw [ne_eq, significant_eq_zero hds]
  cases negative
  · simp [integer]
  · simp only [integer, if_true, true_and]
    omega

/-- Of a sign and digits that are read the zeros in front are dropped, and the sign of zero. -/
theorem signedDigits_integer (hds : ∀ c ∈ ds, isDigit c) : signedDigits (integer negative ds) =
    ⟨negative && significant ds != ['0'], String.ofList (significant ds)⟩ := by
  have hsign : decide (integer negative ds < 0) = (negative && significant ds != ['0']) := by
    rw [Bool.eq_iff_iff, decide_eq_true_iff, integer_neg_iff hds, Bool.and_eq_true, bne_iff_ne]
  have hdigits : digits (integer negative ds) = String.ofList (significant ds) := by
    rw [← digits_integer hds, String.ofList_toList]
  rw [signedDigits, hsign, hdigits]

theorem toList_text (i : Int) : (text i).toList =
    Numeral.signed (i < 0) (decimalDigits i.natAbs) ++ ['n'] := by
  simp [text, decimal]

theorem head?_text_ne (i : Int) {c : Char} (hc : isDigit c = false) (hm : c ≠ '-') :
    (text i).toList.head? ≠ some c := by
  obtain ⟨d, ds, hds⟩ := List.exists_cons_of_ne_nil (decimalDigits_ne_nil i.natAbs)
  have hd : isDigit d := isDigit_of_mem_decimalDigits (hds ▸ List.mem_cons_self)
  rw [toList_text, hds, Numeral.signed]
  split
  · simpa using hm.symm
  · simp only [List.cons_append, List.head?_cons, ne_eq, Option.some.injEq]
    rintro rfl
    rw [hc] at hd
    cases hd

theorem denotes_text (i : Int) : Denotes (text i) i := by
  have hds : ∀ c ∈ decimalDigits i.natAbs, isDigit c := fun _ => isDigit_of_mem_decimalDigits
  have htrim : Text.trim (text i).toList = (text i).toList := by
    rw [toList_text]
    refine Text.trim_of_ends ?_ ?_
    · obtain ⟨d, ds, h⟩ := List.exists_cons_of_ne_nil (decimalDigits_ne_nil i.natAbs)
      have hd := Text.isBlank_of_isDigit (hds d (h ▸ List.mem_cons_self))
      rw [h]
      unfold Numeral.signed
      split
      · exact Text.ends_cons (by decide) _
      · exact Text.ends_cons hd _
    · rw [List.reverse_append]
      exact Text.ends_cons (by decide) _
  refine ⟨i < 0, decimalDigits i.natAbs, ?_, ?_⟩
  · rw [htrim, toList_text]
    exact ⟨decimalDigits_ne_nil _, hds, ['n'], by simp, rfl⟩
  · rw [integer, digitsValue_decimalDigits]
    split_ifs with h <;> simp only [decide_eq_true_eq] at h <;> omega

theorem text_signedDigits (i : Int) : (signedDigits i).text = text i := by
  rw [← String.toList_inj, toList_text]
  by_cases h : i < 0 <;> simp [SignedDigits.text, signedDigits, digits, Numeral.signed, h]

theorem signedDigits_inj : signedDigits i = signedDigits j ↔ i = j := by
  constructor
  · intro h
    obtain ⟨hsign, hdigits⟩ := SignedDigits.mk.inj h
    have habs := decimalDigits_injective (String.ofList_injective hdigits)
    rw [decide_eq_decide] at hsign
    omega
  · rintro rfl
    rfl

/-- No digits but those of zero begin with one. -/
theorem signedDigits_of_head? (h : (signedDigits i).digits.toList.head? = some '0') :
    signedDigits i = ⟨false, "0"⟩ := by
  rw [signedDigits, digits, String.toList_ofList] at h
  obtain rfl : i = 0 := Int.natAbs_eq_zero.1 (head?_decimalDigits h)
  rfl

end BigInt

end Conform
