import Mathlib.Data.List.TakeWhile
import Mathlib.Data.Option.Basic
import Conform.Proofs.Text.Blank
import Conform.Proofs.Transform.Calendar
import Conform.Transform.DateText

/-! Reading moments and reading again what was written for them. Moments in years of four digits
are read back, those in other years are not, since no form has both a long year and an offset. -/

namespace Conform.DateText

open Moment (padded fractionChars yearChars)

variable {cs rest : List Char} {m : Moment} {n width : Nat}

theorem ends_take {p : Char → Bool} (h : Text.Ends p rest) (k : Nat) :
    Text.Ends p (rest.take k) := by
  intro c hc
  rw [List.head?_take] at hc
  split_ifs at hc
  · cases hc
  · exact h c hc

/-! ### Digits -/

theorem number_run {least most : Nat} (hcs : ∀ c ∈ cs, isDigit c) (hl : least ≤ cs.length)
    (hm : cs.length ≤ most) (hrest : cs.length = most ∨ Text.Ends isDigit rest) :
    number least most (cs ++ rest) = some (digitsValue cs, rest) := by
  have hends : Text.Ends isDigit (rest.take (most - cs.length)) := by
    rcases hrest with rfl | hrest
    · rw [Nat.sub_self, List.take_zero]
      exact Text.ends_nil
    · exact ends_take hrest _
  have hrun : ((cs ++ rest).take most).takeWhile isDigit = cs := by
    rw [List.take_append, List.take_of_length_le hm, Text.takeWhile_run hcs hends]
  unfold number
  simp only [hrun, if_neg (Nat.not_lt_of_le hl), List.drop_left]

theorem number_padded (hw : 0 < width) (hn : n < 10 ^ width) (rest : List Char) :
    number width width (padded width n ++ rest) = some (n, rest) := by
  have hlen := Moment.length_padded hw hn
  rw [number_run (fun _ => Moment.isDigit_of_mem_padded) hlen.ge hlen.le (.inl hlen),
    Moment.digitsValue_padded]

/-- A text that does not begin with a digit is no number. -/
theorem number_of_ends {least most : Nat} (hl : 0 < least) (h : Text.Ends isDigit cs) :
    number least most cs = none := by
  have hnone : ∀ c ∈ ([] : List Char), isDigit c := by simp
  have hrun : (cs.take most).takeWhile isDigit = [] := Text.takeWhile_run hnone (ends_take h most)
  simp only [number, hrun, List.length_nil, if_pos hl]

theorem fraction_padded (hw : 0 < width) (h9 : width ≤ 9) (hn : n < 10 ^ width)
    (hrest : Text.Ends isDigit rest) :
    fraction (padded width n ++ rest) = some (n * 10 ^ (9 - width), rest) := by
  have hlen := Moment.length_padded hw hn
  have hrun : (padded width n ++ rest).takeWhile isDigit = padded width n :=
    Text.takeWhile_run (fun _ => Moment.isDigit_of_mem_padded) hrest
  have htake : (padded width n).take 9 = padded width n :=
    List.take_of_length_le (hlen.le.trans h9)
  have hne : (padded width n).isEmpty = false := by
    simpa using Moment.padded_ne_nil
  unfold fraction
  simp only [hrun, hne, htake, hlen, Moment.digitsValue_padded, List.drop_left' hlen]
  rfl

/-- The fraction of a second is read back, in front of an offset. -/
theorem optionalFraction_chars (hn : n < 1000000000) (rest : List Char) :
    optionalFraction (fractionChars n ++ '+' :: rest) = some (n, '+' :: rest) := by
  have hends : Text.Ends isDigit ('+' :: rest) := Text.ends_cons rfl _
  unfold fractionChars
  split_ifs with h0 h6 h3
  · rw [h0]
    rfl
  · have hmul : n / 1000000 * 10 ^ (9 - 3) = n := Nat.div_mul_cancel (Nat.dvd_of_mod_eq_zero h6)
    have hlt : n / 1000000 < 10 ^ 3 := Nat.div_lt_of_lt_mul hn
    rw [List.cons_append, optionalFraction, fraction_padded (by decide) (by decide) hlt hends, hmul]
  · have hmul : n / 1000 * 10 ^ (9 - 6) = n := Nat.div_mul_cancel (Nat.dvd_of_mod_eq_zero h3)
    have hlt : n / 1000 < 10 ^ 6 := Nat.div_lt_of_lt_mul hn
    rw [List.cons_append, optionalFraction, fraction_padded (by decide) (by decide) hlt hends, hmul]
  · rw [List.cons_append, optionalFraction, fraction_padded (by decide) (by decide) hn hends,
      Nat.sub_self, Nat.pow_zero, Nat.mul_one]

/-! ### Timestamps -/

/-- The fields of a written moment, one behind the other. -/
theorem chars_eq (m : Moment) : m.chars = yearChars m.date.year ++ '-' ::
    (padded 2 m.date.month ++ '-' :: (padded 2 m.date.day ++ 'T' :: (padded 2 m.hour ++ ':' ::
      (padded 2 m.minute ++ ':' :: (padded 2 m.second ++
        (fractionChars m.nano ++ "+00:00".toList)))))) := by
  simp [Moment.chars]

theorem exactly_self (c : Char) (rest : List Char) : exactly c (c :: rest) = some ((), rest) :=
  if_pos rfl

theorem separator_T (rest : List Char) : separator ('T' :: rest) = some ((), rest) := rfl

/-- A reader that takes the beginning of a text hands on what is behind it. -/
theorem bind_read {α β : Type} {r : Reader α} {x : α} (h : r cs = some (x, rest))
    (f : α × List Char → Option β) : (r cs >>= f) = f (x, rest) := by
  rw [h]
  rfl

theorem number_two (hn : n ≤ 60) (rest : List Char) :
    number 2 2 (padded 2 n ++ rest) = some (n, rest) :=
  number_padded (by decide) (by omega) rest

theorem timestamp?_chars (h : m.Regular) (h₀ : 0 ≤ m.date.year) (h₉ : m.date.year ≤ 9999) :
    timestamp? m.chars = some m := by
  have hyear : yearChars m.date.year = padded 4 m.date.year.natAbs := by
    simp [yearChars, h₀, h₉]
  have hnat : (m.date.year.natAbs : Int) = m.date.year := Int.natAbs_of_nonneg h₀
  have hlt : m.date.year.natAbs < 10 ^ 4 := by omega
  have hfour := number_padded (by decide) hlt
  have hmonth := number_two (Nat.le_trans h.date.month_le (by decide))
  have hday := number_two (Nat.le_trans h.date.day_le
    (Nat.le_trans (Date.daysIn_bounds _ _).2 (by decide)))
  have hhour := number_two (Nat.le_trans h.hour (by decide))
  have hminute := number_two (Nat.le_trans h.minute (by decide))
  have hsecond := number_two h.second
  have hfraction : optionalFraction (fractionChars m.nano ++ "+00:00".toList) =
      some (m.nano, "+00:00".toList) := optionalFraction_chars h.nano _
  have hoffset : offset "+00:00".toList = some (0, []) := rfl
  rw [chars_eq, hyear]
  refine (bind_read (hfour _) _).trans <| (bind_read (exactly_self ..) _).trans <|
    (bind_read (hmonth _) _).trans <| (bind_read (exactly_self ..) _).trans <|
    (bind_read (hday _) _).trans <| (bind_read (separator_T _) _).trans <|
    (bind_read (hhour _) _).trans <| (bind_read (exactly_self ..) _).trans <|
    (bind_read (hminute _) _).trans <| (bind_read (exactly_self ..) _).trans <|
    (bind_read (hsecond _) _).trans <| (bind_read hfraction _).trans <|
    (bind_read hoffset _).trans ?_
  have hm : (⟨⟨(m.date.year.natAbs : Int), m.date.month, m.date.day⟩, m.hour, m.minute, m.second,
    m.nano⟩ : Moment) = m := by rw [hnat]
  dsimp only
  rw [hm, h.isValid h₀ h₉, h.minusMinutes_zero]
  rfl

/-! ### Other years -/

theorem ends_padded (rest : List Char) : Text.Ends Text.isBlank (padded width n ++ rest) := by
  have hne : padded width n ≠ [] := Moment.padded_ne_nil
  obtain ⟨c, cs, hcs⟩ := List.exists_cons_of_ne_nil hne
  have hc : isDigit c := Moment.isDigit_of_mem_padded (hcs ▸ List.mem_cons_self)
  rw [hcs]
  exact Text.ends_cons (Text.isBlank_of_isDigit hc) _

theorem short_padded (hn : n ≤ 60) (rest : List Char) :
    short (padded 2 n ++ rest) = some (n, rest) := by
  have hlen : (padded 2 n).length = 2 := Moment.length_padded (by decide) (by omega)
  rw [short, Text.trimStart_of_ends (ends_padded rest),
    number_run (fun _ => Moment.isDigit_of_mem_padded) (by omega) hlen.le (.inl hlen),
    Moment.digitsValue_padded]

/-- Whether a year is written with a sign. -/
def Long (y : Int) : Prop := ¬(0 ≤ y ∧ y ≤ 9999)

variable {y : Int}

theorem yearChars_long (hy : Long y) :
    yearChars y = (if y < 0 then '-' else '+') :: padded 4 y.natAbs := by
  have hy : ¬((0 ≤ y && y ≤ 9999) = true) := by simpa [Long] using hy
  rw [yearChars, if_neg hy]

theorem year_long (hy : Long y) (hrest : Text.Ends isDigit rest) :
    year (yearChars y ++ rest) = some (y, rest) := by
  have hpos : 1 ≤ (padded 4 y.natAbs).length :=
    List.length_pos_iff.2 Moment.padded_ne_nil
  have hnumber : number 1 (padded 4 y.natAbs ++ rest).length (padded 4 y.natAbs ++ rest) =
      some (y.natAbs, rest) := by
    rw [number_run (fun _ => Moment.isDigit_of_mem_padded) hpos (by simp) (.inr hrest),
      Moment.digitsValue_padded]
  rw [yearChars_long hy, year]
  split_ifs with hneg
  · have habs : -(y.natAbs : Int) = y := by omega
    rw [List.cons_append, Text.trimStart_of_ends (Text.ends_cons rfl _)]
    change (number 1 _ _).map _ = _
    rw [hnumber, Option.map_some]
    exact congrArg (fun z => some (z, rest)) habs
  · have habs : (y.natAbs : Int) = y := by omega
    rw [List.cons_append, Text.trimStart_of_ends (Text.ends_cons rfl _)]
    change (number 1 _ _).map _ = _
    rw [hnumber, Option.map_some]
    exact congrArg (fun z => some (z, rest)) habs

/-- A date in a long year is read up to the time. -/
theorem date_long {d : Date} (hd : d.InCalendar) (hy : Long d.year) (rest : List Char) :
    date (yearChars d.year ++ '-' :: (padded 2 d.month ++ '-' :: (padded 2 d.day ++ rest))) =
      some (d, rest) := by
  have hmonth := short_padded (Nat.le_trans hd.month_le (by decide))
  have hday := short_padded (Nat.le_trans hd.day_le
    (Nat.le_trans (Date.daysIn_bounds _ _).2 (by decide)))
  exact (bind_read (year_long hy (Text.ends_cons rfl _)) _).trans <|
    (bind_read (exactly_self ..) _).trans <| (bind_read (hmonth _) _).trans <|
    (bind_read (exactly_self ..) _).trans <| bind_read (hday _) _

theorem minutes_long (h : m.Regular) (hy : Long m.date.year) :
    minutes m.chars = some (⟨m.date, m.hour, m.minute, 0, 0⟩,
      ':' :: (padded 2 m.second ++ (fractionChars m.nano ++ "+00:00".toList))) := by
  rw [chars_eq]
  exact (bind_read (date_long h.date hy _) _).trans <| (bind_read (exactly_self ..) _).trans <|
    (bind_read (short_padded (Nat.le_trans h.hour (by decide)) _) _).trans <|
    (bind_read (exactly_self ..) _).trans <|
    bind_read (short_padded (Nat.le_trans h.minute (by decide)) _) _

theorem seconds_long (h : m.Regular) (hy : Long m.date.year) :
    seconds m.chars = some (m, "+00:00".toList) := by
  exact (bind_read (minutes_long h hy) _).trans <| (bind_read (exactly_self ..) _).trans <|
    (bind_read (short_padded h.second _) _).trans <| bind_read (optionalFraction_chars h.nano _) _

theorem midnight_long (h : m.Regular) (hy : Long m.date.year) (more : List Char) :
    ∃ x c rest, midnight (m.chars ++ more) = some (x, c :: rest) := by
  rw [midnight, chars_eq]
  simp only [List.append_assoc, List.cons_append]
  rw [date_long h.date hy]
  exact ⟨_, _, _, rfl⟩

theorem whole?_of_rest {r : Reader Moment} {x : Moment} {c : Char}
    (h : r cs = some (x, c :: rest)) : whole? r cs = none := by
  rw [whole?, h]

/-- What is written for a moment in a long year is not read at all: the form with an offset has
years of four digits, and the others leave the offset over. -/
theorem moment?_long (h : m.Regular) (hy : Long m.date.year) : moment? m.chars = none := by
  have hsign : timestamp? m.chars = none := by
    have hends : Text.Ends isDigit m.chars := by
      rw [chars_eq, yearChars_long hy]
      split_ifs
      · exact Text.ends_cons rfl _
      · exact Text.ends_cons rfl _
    rw [timestamp?, number_of_ends (by decide) hends]
    rfl
  have hmidnight : ∀ more, whole? midnight (m.chars ++ more) = none := by
    intro more
    obtain ⟨x, c, rest, hx⟩ := midnight_long h hy more
    exact whole?_of_rest hx
  have hbare := hmidnight []
  rw [List.append_nil] at hbare
  rw [moment?, hsign, whole?_of_rest (seconds_long h hy), whole?_of_rest (minutes_long h hy), hbare,
    hmidnight, hmidnight]
  rfl

/-- Whether what is written for a moment is read back shows in its year. -/
theorem moment?_chars (h : m.Regular) :
    moment? m.chars = if 0 ≤ m.date.year ∧ m.date.year ≤ 9999 then some m else none := by
  split_ifs with hy
  · rw [moment?, timestamp?_chars h hy.1 hy.2]
    rfl
  · exact moment?_long h hy

theorem ends_yearChars (y : Int) (rest : List Char) :
    Text.Ends Text.isBlank (yearChars y ++ rest) := by
  unfold yearChars
  split_ifs
  · exact ends_padded rest
  · exact Text.ends_cons rfl _
  · exact Text.ends_cons rfl _

/-- A written moment begins with a sign or a digit and ends with a zero. -/
theorem trim_chars (m : Moment) : Text.trim m.chars = m.chars := by
  apply Text.trim_of_ends
  · rw [chars_eq]
    exact ends_yearChars _ _
  · rw [Moment.chars, List.reverse_append]
    exact Text.ends_cons rfl _

/-! ### What is read -/

theorem fraction_lt (h : fraction cs = some (n, rest)) : n < 1000000000 := by
  simp only [fraction] at h
  split_ifs at h
  simp only [Option.some.injEq, Prod.mk.injEq] at h
  rw [← h.1]
  set ds := (cs.takeWhile isDigit).take 9 with hds
  have hlen : ds.length ≤ 9 := List.length_take_le _ _
  have hdigits : ∀ c ∈ ds, isDigit c := fun c hc => List.mem_takeWhile_imp (List.mem_of_mem_take hc)
  calc digitsValue ds * 10 ^ (9 - ds.length)
      < 10 ^ ds.length * 10 ^ (9 - ds.length) :=
        Nat.mul_lt_mul_of_pos_right (digitsValue_lt hdigits) (Nat.pow_pos (by decide))
    _ = 10 ^ 9 := by rw [← Nat.pow_add, Nat.add_sub_cancel' hlen]

theorem optionalFraction_lt (h : optionalFraction cs = some (n, rest)) : n < 1000000000 := by
  unfold optionalFraction at h
  split at h
  · exact fraction_lt h
  · cases h
    decide

theorem timestamp?_regular (h : timestamp? cs = some m) : m.Regular := by
  -- one reader at a time: all of them at once are too many for one rewrite
  obtain ⟨⟨year, _⟩, -, h⟩ := Option.bind_eq_some_iff.1 h
  obtain ⟨_, -, h⟩ := Option.bind_eq_some_iff.1 h
  obtain ⟨⟨month, _⟩, -, h⟩ := Option.bind_eq_some_iff.1 h
  obtain ⟨_, -, h⟩ := Option.bind_eq_some_iff.1 h
  obtain ⟨⟨day, _⟩, -, h⟩ := Option.bind_eq_some_iff.1 h
  obtain ⟨_, -, h⟩ := Option.bind_eq_some_iff.1 h
  obtain ⟨⟨hour, _⟩, -, h⟩ := Option.bind_eq_some_iff.1 h
  obtain ⟨_, -, h⟩ := Option.bind_eq_some_iff.1 h
  obtain ⟨⟨minute, _⟩, -, h⟩ := Option.bind_eq_some_iff.1 h
  obtain ⟨_, -, h⟩ := Option.bind_eq_some_iff.1 h
  obtain ⟨⟨second, _⟩, -, h⟩ := Option.bind_eq_some_iff.1 h
  obtain ⟨⟨nano, _⟩, hnano, h⟩ := Option.bind_eq_some_iff.1 h
  obtain ⟨⟨minutes, _⟩, -, h⟩ := Option.bind_eq_some_iff.1 h
  dsimp only at h
  split_ifs at h with hvalid
  obtain rfl := Option.some.inj h
  rw [Bool.and_eq_true] at hvalid
  exact (Moment.regular_of_isValid hvalid.2 (optionalFraction_lt hnano)).minusMinutes _

theorem whole?_regular {r : Reader Moment}
    (hr : ∀ {cs x rest}, r cs = some (x, rest) → x.nano < 1000000000)
    (h : whole? r cs = some m) : m.Regular := by
  unfold whole? at h
  split at h
  · rename_i x hx
    split_ifs at h with hvalid
    obtain rfl := Option.some.inj h
    exact Moment.regular_of_isValid hvalid (hr hx)
  · cases h

theorem minutes_nano (h : minutes cs = some (m, rest)) : m.nano = 0 := by
  simp only [minutes, Option.bind_eq_bind, Option.bind_eq_some_iff] at h
  obtain ⟨_, -, _, -, _, -, _, -, _, -, h⟩ := h
  cases h
  rfl

theorem midnight_nano (h : midnight cs = some (m, rest)) : m.nano = 0 := by
  obtain ⟨d, -, h⟩ := Option.map_eq_some_iff.1 h
  cases h
  rfl

theorem seconds_lt (h : seconds cs = some (m, rest)) : m.nano < 1000000000 := by
  simp only [seconds, Option.bind_eq_bind, Option.bind_eq_some_iff] at h
  obtain ⟨_, -, _, -, _, -, nano, hnano, h⟩ := h
  cases h
  exact optionalFraction_lt hnano

/-- What is read is a moment that there is, though the offset may have moved it into a year that is
not the one of the text. -/
theorem moment?_regular (h : moment? cs = some m) : m.Regular := by
  have hmidnight : ∀ {cs}, whole? midnight cs = some m → m.Regular :=
    whole?_regular fun hx => (midnight_nano hx).trans_lt (by decide)
  simp only [moment?, Option.orElse_eq_some] at h
  rcases h with h | ⟨-, h | ⟨-, h | ⟨-, h | ⟨-, h | ⟨-, h⟩⟩⟩⟩⟩
  · exact timestamp?_regular h
  · exact whole?_regular seconds_lt h
  · exact whole?_regular (fun hx => (minutes_nano hx).trans_lt (by decide)) h
  · exact hmidnight h
  · exact hmidnight h
  · exact hmidnight h

end Conform.DateText
