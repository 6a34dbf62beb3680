import Conform.Proofs.Number.Digits
import Conform.Proofs.Text.Runs
import Conform.Text.Blank

/-! Texts that begin, or end, with what is no blank, and blanks in front of them. -/

namespace Conform.Text

variable {cs blanks : List Char}

theorem isBlank_of_isDigit {c : Char} (h : isDigit c) : isBlank c = false := by
  have := isDigit_iff.1 h
  simp only [isBlank, Bool.or_eq_false_iff, Bool.and_eq_false_iff, decide_eq_false_iff_not,
    beq_eq_false_iff_ne]
  omega

theorem trimStart_append (hb : ∀ c ∈ blanks, isBlank c) (h : Ends isBlank cs) :
    trimStart (blanks ++ cs) = cs := dropWhile_run hb h

theorem trimStart_of_ends (h : Ends isBlank cs) : trimStart cs = cs := by
  have hnone : ∀ c ∈ ([] : List Char), isBlank c := by simp
  exact trimStart_append hnone h

theorem trim_of_ends (h : Ends isBlank cs) (h' : Ends isBlank cs.reverse) : trim cs = cs := by
  have hrev : cs.reverse.dropWhile isBlank = cs.reverse := trimStart_of_ends h'
  rw [trim, trimStart_of_ends h, trimEnd, hrev, List.reverse_reverse]

end Conform.Text
