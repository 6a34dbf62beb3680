import Mathlib.Tactic.IntervalCases
import Conform.Json.Reader

/-! Quoted text reads back: whatever stands behind the closing quote, the reader of strings finds
the text that was quoted and stops there. -/

namespace Conform

namespace Json

theorem readHex_padded {n : Nat} (h : n < 0x20) (offset : Nat) (rest : List Char) :
    readHex ⟨offset, Text.padded 4 (Text.hexDigits n) ++ rest⟩ = .ok (n, ⟨offset + 4, rest⟩) := by
  interval_cases n <;> rfl

theorem readUnicode_padded {c : Char} (h : c.toNat < 0x20) (offset : Nat) (rest : List Char) :
    readUnicode ⟨offset, Text.padded 4 (Text.hexDigits c.toNat) ++ rest⟩ =
      .ok (c, ⟨offset + 4, rest⟩) := by
  rw [readUnicode, readHex_padded h]
  change (if _ then _ else if _ then _ else _) = _
  rw [if_neg (by simp; omega), if_pos (by simp; omega), Char.ofNat_toNat]
  rfl

theorem readChars_quotedChar (turn : Char) (turns done : List Char) (offset : Nat) (c : Char)
    (rest : List Char) :
    ∃ n, readChars (turn :: turns) done ⟨offset, Text.quotedChar c ++ rest⟩ =
      readChars turns (c :: done) ⟨n, rest⟩ := by
  unfold Text.quotedChar
  split_ifs with h₁ h₂ h₃ h₄ h₅ h₆ h₇ h₈
  · exact ⟨_, by rw [h₁]; rfl⟩
  · exact ⟨_, by rw [h₂]; rfl⟩
  · exact ⟨_, by rw [h₃]; rfl⟩
  · exact ⟨_, by rw [h₄]; rfl⟩
  · exact ⟨_, by rw [h₅]; rfl⟩
  · exact ⟨_, by rw [← Char.ofNat_toNat c, h₆]; rfl⟩
  · exact ⟨_, by rw [← Char.ofNat_toNat c, h₇]; rfl⟩
  · refine ⟨offset + 1 + 1 + 4, ?_⟩
    calc
      _ = (readUnicode ⟨offset + 1 + 1, Text.padded 4 (Text.hexDigits c.toNat) ++ rest⟩ >>=
          fun r => readChars turns (r.1 :: done) r.2) := rfl
      _ = _ := by rw [readUnicode_padded h₈]; rfl
  · exact ⟨_, by simp [readChars, h₁, h₂, h₈, Cursor.skip]; rfl⟩

theorem readChars_quoted {turns cs : List Char} (h : cs.length < turns.length)
    (done : List Char) (offset : Nat) (rest : List Char) :
    ∃ n, readChars turns done ⟨offset, cs.flatMap Text.quotedChar ++ '"' :: rest⟩ =
      .ok (String.ofList (done.reverse ++ cs), ⟨n, rest⟩) := by
  induction cs generalizing turns done offset with
  | nil =>
    obtain ⟨turn, turns, rfl⟩ := List.exists_cons_of_length_pos h
    exact ⟨offset + 1, by simp [readChars, Cursor.skip]⟩
  | cons c cs ih =>
    obtain ⟨turn, turns, rfl⟩ := List.exists_cons_of_length_pos (Nat.zero_lt_of_lt h)
    obtain ⟨n, hn⟩ := readChars_quotedChar turn turns done offset c
      (cs.flatMap Text.quotedChar ++ '"' :: rest)
    obtain ⟨m, hm⟩ := ih (Nat.lt_of_succ_lt_succ h) (c :: done) n
    exact ⟨m, by rw [List.flatMap_cons, List.append_assoc, hn, hm]; simp⟩

end Json

namespace Text

theorem length_le_flatMap_quotedChar (cs : List Char) :
    cs.length ≤ (cs.flatMap quotedChar).length := by
  induction cs with
  | nil => exact Nat.le_refl _
  | cons c cs ih =>
    have hpos : 0 < (quotedChar c).length := by
      unfold quotedChar
      split_ifs <;> simp
    rw [List.flatMap_cons, List.length_append, List.length_cons]
    omega

/-- Quoted text is read back from behind its opening quote. -/
theorem readString_quoted (s : String) (offset : Nat) (rest : List Char) :
    ∃ n, Json.readString ⟨offset, s.toList.flatMap quotedChar ++ '"' :: rest⟩ =
      .ok (s, ⟨n, rest⟩) := by
  have hlen : s.toList.length <
      ('"' :: (s.toList.flatMap quotedChar ++ '"' :: rest)).length := by
    have := length_le_flatMap_quotedChar s.toList
    rw [List.length_cons, List.length_append]
    omega
  obtain ⟨n, hn⟩ := Json.readChars_quoted hlen [] offset rest
  exact ⟨n, by rw [Json.readString, hn, List.reverse_nil, List.nil_append, String.ofList_toList]⟩

/-- Quoted text ends at its closing quote, and no two texts are quoted alike. -/
theorem quoted_append_inj {s t : String} {rest rest' : List Char}
    (h : (quoted s).toList ++ rest = (quoted t).toList ++ rest') : s = t ∧ rest = rest' := by
  simp only [quoted, quotedChars, String.toList_ofList, List.cons_append, List.append_assoc,
    List.cons.injEq, true_and, List.nil_append] at h
  obtain ⟨m, hm⟩ := readString_quoted s 0 rest
  obtain ⟨n, hn⟩ := readString_quoted t 0 rest'
  rw [h, hn] at hm
  cases hm
  exact ⟨rfl, rfl⟩

theorem le_of_mem_quotedChar (c : Char) : ∀ d ∈ quotedChar c, 0x20 ≤ d.toNat := by
  have hpadded : ∀ n < 0x20, (padded 4 (hexDigits n)).all (0x20 ≤ ·.toNat) := by decide
  suffices hall : (quotedChar c).all (0x20 ≤ ·.toNat) by simpa using hall
  rw [quotedChar]
  by_cases hcontrol : c.toNat < 0x20
  · rw [if_pos hcontrol]
    split_ifs
    all_goals first | decide | simpa using hpadded _ hcontrol
  · rw [if_neg hcontrol]
    split_ifs
    all_goals first | decide | simpa using hcontrol

theorem le_of_mem_quoted {s : String} {d : Char} (h : d ∈ (quoted s).toList) : 0x20 ≤ d.toNat := by
  simp only [quoted, quotedChars, String.toList_ofList, List.cons_append, List.mem_cons,
    List.mem_append, List.mem_flatMap, List.not_mem_nil, or_false] at h
  rcases h with rfl | ⟨c, -, h⟩ | rfl
  · decide
  · exact le_of_mem_quotedChar c d h
  · decide

end Text

end Conform
