import Mathlib.Data.List.TakeWhile
import Conform.Number.Numeral
import Conform.Proofs.Number.Shortest
import Conform.Proofs.Text.Runs

/-! Numerals tell numbers apart, whatever their style: what a numeral without a sign says rounds to
the number that was written. -/

namespace Conform

theorem Decimal.value_eq (d : Decimal) :
    d.value = digitsValue (decimalDigits d.digits) * 10 ^ d.exponent := by
  rw [digitsValue_decimalDigits, value]

namespace Numeral

def exponent : List Char → Int
  | _ :: '-' :: ds => -digitsValue ds
  | _ :: _ :: ds => digitsValue ds
  | _ => 0

def value (cs : List Char) : ℚ :=
  let mantissa := cs.takeWhile (· ≠ 'e')
  let places := (mantissa.dropWhile (· ≠ '.')).tail
  digitsValue (mantissa.takeWhile (· ≠ '.') ++ places) *
    10 ^ (exponent (cs.dropWhile (· ≠ 'e')) - places.length)

/-- Digits, and further ones behind a point if there are any. -/
def mantissa (whole places : List Char) : List Char :=
  whole ++ if places = [] then [] else '.' :: places

theorem mantissa_of_ne_nil {places : List Char} (h : places ≠ []) (whole : List Char) :
    mantissa whole places = whole ++ '.' :: places := by
  rw [mantissa, if_neg h]

/-- The text of an exponent, if there is one. -/
def power : Option Int → List Char
  | none => []
  | some p => 'e' :: (if p < 0 then '-' else '+') :: decimalDigits p.natAbs

@[simp] theorem exponent_power (p : Option Int) : exponent (power p) = p.getD 0 := by
  cases p with
  | none => rfl
  | some p =>
    rw [power]
    split_ifs with h
    · change -(digitsValue (decimalDigits p.natAbs) : Int) = p
      rw [digitsValue_decimalDigits, Int.ofNat_natAbs_of_nonpos h.le, neg_neg]
    · change (digitsValue (decimalDigits p.natAbs) : Int) = p
      rw [digitsValue_decimalDigits, Int.natAbs_of_nonneg (not_lt.1 h)]

/-- Whether a text is the numeral of a number: digits, perhaps with a point and an exponent. -/
inductive Written : List Char → ℚ → Prop where
  | mk (whole places : List Char) (p : Option Int) (hne : whole ≠ [])
      (hw : ∀ c ∈ whole, isDigit c) (hp : ∀ c ∈ places, isDigit c) :
      Written (mantissa whole places ++ power p)
        (digitsValue (whole ++ places) * 10 ^ (p.getD 0 - places.length))

theorem ne_of_isDigit {c d : Char} (hd : isDigit d = false) (hc : isDigit c) : c ≠ d := by
  rintro rfl
  rw [hd] at hc
  cases hc

theorem mem_mantissa {whole places : List Char} {c : Char} (hw : ∀ c ∈ whole, isDigit c)
    (hp : ∀ c ∈ places, isDigit c) (h : c ∈ mantissa whole places) : isDigit c ∨ c = '.' := by
  rcases List.mem_append.1 h with h | h
  · exact Or.inl (hw c h)
  · split at h
    · cases h
    · exact (List.mem_cons.1 h).elim Or.inr fun h => Or.inl (hp c h)

namespace Written

variable {cs : List Char} {x : ℚ}

theorem value_eq (h : Written cs x) : value cs = x := by
  obtain ⟨whole, places, p, hne, hw, hp⟩ := h
  have hmantissa : ∀ c ∈ mantissa whole places, (c ≠ 'e' : Bool) := fun c hc => by
    rcases mem_mantissa hw hp hc with hc | rfl
    · simpa using ne_of_isDigit (by decide) hc
    · decide
  have hpower : Text.Ends (· ≠ 'e') (power p) := by
    cases p with
    | none => exact Text.ends_nil
    | some p => exact Text.ends_cons (by decide) _
  have hwhole : ∀ c ∈ whole, (c ≠ '.' : Bool) := fun c hc => by
    simpa using ne_of_isDigit (by decide) (hw c hc)
  have hpoint : Text.Ends (· ≠ '.') (if places = [] then [] else '.' :: places) := by
    split
    · exact Text.ends_nil
    · exact Text.ends_cons (by decide) _
  have htail : (if places = [] then [] else '.' :: places).tail = places := by
    split
    · rename_i h
      rw [h]
      rfl
    · rfl
  simp only [value]
  rw [Text.takeWhile_run hmantissa hpower, Text.dropWhile_run hmantissa hpower, mantissa,
    Text.takeWhile_run hwhole hpoint, Text.dropWhile_run hwhole hpoint, htail, exponent_power]

theorem head?_ne (h : Written cs x) {c : Char} (hc : isDigit c = false) : cs.head? ≠ some c := by
  obtain ⟨whole, places, p, hne, hw, hp⟩ := h
  obtain ⟨d, ds, rfl⟩ := List.exists_cons_of_ne_nil hne
  intro h
  exact ne_of_isDigit hc (hw d List.mem_cons_self) (Option.some.inj h)

theorem mem (h : Written cs x) {c : Char} (hc : c ∈ cs) : isDigit c ∨ c ∈ ['.', 'e', '+', '-'] := by
  obtain ⟨whole, places, p, hne, hw, hp⟩ := h
  rcases List.mem_append.1 hc with hc | hc
  · exact (mem_mantissa hw hp hc).imp_right fun hc => by simp [hc]
  · cases p with
    | none => cases hc
    | some p =>
      rw [power, List.mem_cons, List.mem_cons] at hc
      rcases hc with rfl | rfl | hc
      · simp
      · split <;> simp
      · exact Or.inl (isDigit_of_mem_decimalDigits hc)

end Written

section

variable {ds : List Char}

theorem isDigit_of_mem_zeros {n : Nat} : ∀ c ∈ List.replicate n '0', isDigit c := fun c hc => by
  rw [List.eq_of_mem_replicate hc]
  decide

theorem written_mantissa (whole places : List Char) {x : ℚ} (hne : whole ≠ [])
    (hw : ∀ c ∈ whole, isDigit c) (hp : ∀ c ∈ places, isDigit c)
    (hx : digitsValue (whole ++ places) * 10 ^ (-places.length : ℤ) = x) :
    Written (mantissa whole places) x := by
  have h := Written.mk whole places none hne hw hp
  rwa [power, List.append_nil, Option.getD_none, zero_sub, hx] at h

theorem isDigit_of_mem_append_zeros {n : Nat} (hds : ∀ c ∈ ds, isDigit c) :
    ∀ c ∈ ds ++ List.replicate n '0', isDigit c := fun c hc =>
  (List.mem_append.1 hc).elim (hds c) (isDigit_of_mem_zeros c)

theorem written_zeros_append (n : Nat) (hds : ∀ c ∈ ds, isDigit c) (hne : ds ≠ []) :
    Written ('0' :: '.' :: List.replicate n '0' ++ ds)
      (digitsValue ds * 10 ^ (-(n : ℤ) - ds.length)) := by
  have hplaces : List.replicate n '0' ++ ds ≠ [] := List.append_ne_nil_of_right_ne_nil _ hne
  have htext : '0' :: '.' :: List.replicate n '0' ++ ds =
      mantissa ['0'] (List.replicate n '0' ++ ds) := by
    rw [mantissa_of_ne_nil hplaces]
    rfl
  rw [htext]
  refine written_mantissa _ _ (by simp) (isDigit_of_mem_zeros (n := 1)) (fun c hc =>
    (List.mem_append.1 hc).elim (isDigit_of_mem_zeros c) (hds c)) ?_
  congr 1
  · rw [digitsValue_append, digitsValue_append, digitsValue_replicate]
    simp [digitsValue, digitValue]
  · congr 1
    rw [List.length_append, List.length_replicate]
    omega

theorem written_append_zeros (n : Nat) (pointZero : Bool) (hds : ∀ c ∈ ds, isDigit c)
    (hne : ds ≠ []) :
    Written (ds ++ List.replicate n '0' ++ if pointZero then ['.', '0'] else [])
      (digitsValue ds * 10 ^ n) := by
  have hall := isDigit_of_mem_append_zeros (n := n) hds
  have hne : ds ++ List.replicate n '0' ≠ [] := List.append_ne_nil_of_left_ne_nil hne _
  cases pointZero with
  | true =>
    refine written_mantissa _ ['0'] hne hall (isDigit_of_mem_zeros (n := 1)) ?_
    rw [digitsValue_append, digitsValue_append, digitsValue_replicate]
    simp [digitsValue, digitValue]
  | false =>
    refine written_mantissa _ [] hne hall (by simp) ?_
    rw [List.append_nil, digitsValue_append, digitsValue_replicate]
    simp

theorem written_take_drop {n : Nat} (hds : ∀ c ∈ ds, isDigit c) (hpos : 0 < n)
    (hlt : n < ds.length) :
    Written (ds.take n ++ '.' :: ds.drop n) (digitsValue ds * 10 ^ ((n : ℤ) - ds.length)) := by
  have hplaces : ds.drop n ≠ [] := by
    rw [Ne, List.drop_eq_nil_iff]
    omega
  have hwhole : ds.take n ≠ [] := by
    rw [Ne, List.take_eq_nil_iff]
    exact not_or.2 ⟨hpos.ne', List.ne_nil_of_length_pos (Nat.zero_lt_of_lt hlt)⟩
  rw [← mantissa_of_ne_nil hplaces]
  refine written_mantissa _ _ hwhole (fun c hc => hds c (List.mem_of_mem_take hc))
    (fun c hc => hds c (List.mem_of_mem_drop hc)) ?_
  rw [List.take_append_drop, List.length_drop]
  congr 2
  omega

theorem written_positional (style : Numeral) (point : Int) (hds : ∀ c ∈ ds, isDigit c)
    (hne : ds ≠ []) :
    Written (style.positional ds point) (digitsValue ds * 10 ^ (point - ds.length)) := by
  unfold positional
  split
  · rename_i hlow
    have hpoint : -((-point).toNat : ℤ) = point := by omega
    have hwritten := written_zeros_append (-point).toNat hds hne
    rwa [hpoint] at hwritten
  · rename_i hlow
    split
    · rename_i hle
      have hpower : (10 : ℚ) ^ (point - ds.length) = 10 ^ (point.toNat - ds.length) := by
        rw [← zpow_natCast]
        congr 1
        omega
      exact hpower ▸ written_append_zeros _ _ hds hne
    · rename_i hlt
      have hpoint : (point.toNat : ℤ) = point := by omega
      have hwritten := written_take_drop hds (n := point.toNat) (by omega) (by omega)
      rwa [hpoint] at hwritten

theorem written_exponential (point : Int) (hds : ∀ c ∈ ds, isDigit c) (hne : ds ≠ []) :
    Written (exponential ds point) (digitsValue ds * 10 ^ (point - ds.length)) := by
  have htext : exponential ds point =
      mantissa (ds.take 1) (ds.drop 1) ++ power (some (point - 1)) := by
    have hdrop : ds.drop 1 = [] ↔ ¬1 < ds.length := by
      rw [List.drop_eq_nil_iff]
      omega
    rw [exponential, mantissa, power]
    by_cases h : 1 < ds.length
    · rw [if_pos h, if_neg (hdrop.not.2 (not_not.2 h))]
    · rw [if_neg h, if_pos (hdrop.2 h)]
  have hwritten := Written.mk (ds.take 1) (ds.drop 1) (some (point - 1)) (by simpa using hne)
    (fun c hc => hds c (List.mem_of_mem_take hc)) (fun c hc => hds c (List.mem_of_mem_drop hc))
  have hpos := List.length_pos_of_ne_nil hne
  rw [List.take_append_drop, List.length_drop, Option.getD_some,
    show point - 1 - ((ds.length - 1 : ℕ) : ℤ) = point - ds.length by omega, ← htext] at hwritten
  exact hwritten

theorem written_decimal (style : Numeral) (d : Decimal) : Written (style.decimal d) d.value := by
  have hds : ∀ c ∈ decimalDigits d.digits, isDigit c := fun _ => isDigit_of_mem_decimalDigits
  have hne := decimalDigits_ne_nil d.digits
  have hexp (n : Nat) : (n : Int) + d.exponent - n = d.exponent := by omega
  rw [d.value_eq]
  unfold decimal
  simp only
  split
  · have hwritten := style.written_positional ((decimalDigits d.digits).length + d.exponent) hds hne
    rwa [hexp] at hwritten
  · have hwritten := written_exponential ((decimalDigits d.digits).length + d.exponent) hds hne
    rwa [hexp] at hwritten

end

/-! ### Telling numbers apart -/

/-- The numeral of a finite magnitude. -/
def unsigned (style : Numeral) (rank : Nat) : List Char :=
  if rank = 0 then '0' :: if style.pointZero then ['.', '0'] else []
  else style.decimal (Double.shortest style.tie rank)

theorem chars_finite (style : Numeral) (negative : Bool) (rank : Fin rankLimit) :
    style.chars (.finite negative rank) =
      signed (if rank.val = 0 then negative && style.signedZero else negative)
        (style.unsigned rank) := by
  by_cases h : rank.val = 0 <;> simp [chars, unsigned, h]

/-- The numeral of a magnitude is that of a number which rounds to it. -/
theorem exists_written_unsigned (style : Numeral) (rank : Nat) :
    ∃ x, Written (style.unsigned rank) x ∧ Double.RoundsTo rank (x * Double.unitsInOne) := by
  rcases Nat.eq_zero_or_pos rank with rfl | h
  · have hzero : ∀ c ∈ ['0'], isDigit c := isDigit_of_mem_zeros (n := 1)
    refine ⟨0, ?_, ?_⟩
    · rw [unsigned, if_pos rfl]
      split
      · exact written_mantissa ['0'] ['0'] (by simp) hzero hzero
          (by simp [digitsValue, digitValue])
      · exact written_mantissa ['0'] [] (by simp) hzero (by simp)
          (by simp [digitsValue, digitValue])
    · rw [zero_mul]
      simp [Double.RoundsTo, Double.units]
  · rw [unsigned, if_neg h.ne']
    exact ⟨_, style.written_decimal _, Double.roundsTo_shortest style.tie h⟩

theorem unsigned_injective (style : Numeral) : Function.Injective style.unsigned := fun r q h => by
  obtain ⟨x, hx, hr⟩ := style.exists_written_unsigned r
  obtain ⟨y, hy, hq⟩ := style.exists_written_unsigned q
  rw [← hx.value_eq, h, hy.value_eq] at hr
  exact hr.unique hq

theorem signed_inj {m n : Bool} {cs ds : List Char} (hc : cs.head? ≠ some '-')
    (hd : ds.head? ≠ some '-') (h : signed m cs = signed n ds) : m = n ∧ cs = ds := by
  cases m <;> cases n
  · exact ⟨rfl, h⟩
  · exact absurd (congrArg List.head? h) hc
  · exact absurd (congrArg List.head? h).symm hd
  · exact ⟨rfl, (List.cons.inj h).2⟩

theorem mem_signed {negative : Bool} {cs : List Char} {c : Char} (h : c ∈ signed negative cs) :
    c = '-' ∨ c ∈ cs := by
  cases negative
  · exact Or.inr h
  · exact List.mem_cons.1 h

theorem head?_signed_ne {negative : Bool} {cs : List Char} {c : Char} (hc : c ≠ '-')
    (h : cs.head? ≠ some c) : (signed negative cs).head? ≠ some c := by
  cases negative
  · exact h
  · simpa [signed] using hc.symm

theorem head?_unsigned_ne (style : Numeral) (rank : Nat) {c : Char} (hc : isDigit c = false) :
    (style.unsigned rank).head? ≠ some c :=
  have ⟨_, hwritten, _⟩ := style.exists_written_unsigned rank
  hwritten.head?_ne hc

theorem signed_unsigned_ne {style : Numeral} {rank : Nat} {m n : Bool} {c : Char} {cs : List Char}
    (hc : isDigit c = false) (hm : c ≠ '-') :
    signed m (style.unsigned rank) ≠ signed n (c :: cs) := fun h => by
  have hd := style.head?_unsigned_ne rank (c := '-') (by decide)
  have hcs := (signed_inj hd (by simpa using hm) h).2
  exact style.head?_unsigned_ne rank hc (by rw [hcs, List.head?_cons])

/-- Numbers with the same numeral are the same, but for the sign of a zero. -/
theorem same_of_text_eq (style : Numeral) {x y : Double} (h : style.text x = style.text y) :
    x.same y := by
  have h : style.chars x = style.chars y := String.ofList_injective h
  have hinf (rank : Nat) (m n : Bool) :
      signed m (style.unsigned rank) ≠ signed n "Infinity".toList :=
    signed_unsigned_ne (by decide) (by decide)
  have hnan (rank : Nat) (m : Bool) : signed m (style.unsigned rank) ≠ "NaN".toList :=
    signed_unsigned_ne (n := false) (by decide) (by decide)
  have hne (m : Bool) : signed m "Infinity".toList ≠ "NaN".toList := by cases m <;> decide
  cases x with
  | nan =>
    cases y with
    | nan => rfl
    | infinite n => exact (hne n h.symm).elim
    | finite n q => exact (hnan _ _ ((chars_finite style n q).symm.trans h.symm)).elim
  | infinite m =>
    cases y with
    | nan => exact (hne m h).elim
    | infinite n =>
      obtain rfl := (signed_inj (by decide) (by decide) h).1
      simp [Double.same, Double.equal]
    | finite n q => exact (hinf _ _ _ ((chars_finite style n q).symm.trans h.symm)).elim
  | finite m r =>
    rw [chars_finite] at h
    cases y with
    | nan => exact (hnan _ _ h).elim
    | infinite n => exact (hinf _ _ _ h).elim
    | finite n q =>
      rw [chars_finite] at h
      obtain ⟨hsign, hrank⟩ := signed_inj (head?_unsigned_ne style r (by decide))
        (head?_unsigned_ne style q (by decide)) h
      have hrank := style.unsigned_injective hrank
      by_cases hz : r.val = 0
      · simp [Double.same, Double.equal, ← hrank, hz, Fin.ext_iff]
      · rw [if_neg hz, if_neg (hrank ▸ hz)] at hsign
        simp [Double.same, Double.equal, Fin.ext_iff, hrank, hsign]

end Numeral

/-- What is one entry of a table is equal to the same numbers. -/
theorem Double.equal_of_same {x y : Double} (h : x.same y) (d : Double) :
    d.equal x = d.equal y := by
  cases x with
  | nan => cases y with
    | nan => rfl
    | _ => cases h
  | infinite m => cases y with
    | infinite n =>
      obtain rfl : m = n := by simpa [same, equal] using h
      rfl
    | _ => cases h
  | finite m r => cases y with
    | finite n q =>
      obtain ⟨rfl, hsign⟩ : r = q ∧ (m = n ∨ r.val = 0) := by simpa [same, equal] using h
      cases d with
      | finite s k =>
        rcases hsign with rfl | hz
        · rfl
        · by_cases hk : k = r
          · simp [equal, hk, hz]
          · simp [equal, beq_eq_false_iff_ne.2 hk]
      | _ => rfl
    | _ => cases h

end Conform
