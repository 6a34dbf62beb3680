import Mathlib.Tactic.Common

/-! Runs of characters of one kind, in front of text that does not go on with another one. -/

namespace Conform.Text

variable {p : Char → Bool} {xs ys rest rest' : List Char}

/-- Whether a text does not begin with a character of a kind. -/
def Ends (p : Char → Bool) (rest : List Char) : Prop := ∀ c ∈ rest.head?, ¬p c

theorem ends_nil : Ends p [] := nofun

theorem ends_of_head? {c : Char} (hc : rest.head? = some c) (h : p c = false) : Ends p rest := by
  intro d hd
  rw [hc] at hd
  obtain rfl := Option.some.inj hd
  simp [h]

theorem ends_cons {c : Char} (h : p c = false) (cs : List Char) : Ends p (c :: cs) :=
  ends_of_head? rfl h

theorem ends_dropWhile (p : Char → Bool) (cs : List Char) : Ends p (cs.dropWhile p) := by
  intro c hc
  have hnot := List.head?_dropWhile_not p cs
  rw [Option.mem_def.1 hc] at hnot
  simpa using hnot

theorem takeWhile_run (hx : ∀ c ∈ xs, p c) (hrest : Ends p rest) :
    (xs ++ rest).takeWhile p = xs := by
  rw [List.takeWhile_append_of_pos hx]
  cases rest with
  | nil => simp
  | cons c rest => simp [hrest c rfl]

theorem dropWhile_run (hx : ∀ c ∈ xs, p c) (hrest : Ends p rest) :
    (xs ++ rest).dropWhile p = rest := by
  rw [List.dropWhile_append_of_pos hx]
  cases rest with
  | nil => rfl
  | cons c rest => simp [hrest c rfl]

/-- A run and the text behind it can be told apart. -/
theorem run_append_inj (hx : ∀ c ∈ xs, p c) (hy : ∀ c ∈ ys, p c) (hrest : Ends p rest)
    (hrest' : Ends p rest') (h : xs ++ rest = ys ++ rest') : xs = ys ∧ rest = rest' :=
  ⟨by rw [← takeWhile_run hx hrest, h, takeWhile_run hy hrest'],
    by rw [← dropWhile_run hx hrest, h, dropWhile_run hy hrest']⟩

end Conform.Text
