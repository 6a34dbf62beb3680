/-! Text in pieces between separators, and pieces put together again. -/

namespace Conform.Text

/-- The pieces between separators, with a last one behind the last separator. -/
def split (separator : Char) : List Char → List (List Char)
  | [] => [[]]
  | c :: cs =>
    if c = separator then [] :: split separator cs
    else match split separator cs with
      | [] => [[c]]
      | p :: ps => (c :: p) :: ps

def join (separator : Char) : List (List Char) → List Char
  | [] => []
  | [p] => p
  | p :: ps => p ++ separator :: join separator ps

theorem split_ne_nil (separator : Char) (cs : List Char) : split separator cs ≠ [] := by
  cases cs with
  | nil => simp [split]
  | cons c cs =>
    simp only [split]
    split
    · simp
    · split <;> simp

theorem not_mem_of_mem_split {separator : Char} {cs p : List Char} (h : p ∈ split separator cs) :
    separator ∉ p := by
  induction cs generalizing p with
  | nil => simp_all [split]
  | cons c cs ih =>
    simp only [split] at h
    split at h
    · rcases List.mem_cons.1 h with rfl | h
      · simp
      · exact ih h
    · next hc =>
      split at h
      · simp only [List.mem_singleton] at h
        simp [h, Ne.symm hc]
      · next q qs heq =>
        rcases List.mem_cons.1 h with rfl | h
        · simp [Ne.symm hc, ih (heq ▸ List.mem_cons_self)]
        · exact ih (heq ▸ List.mem_cons_of_mem _ h)

theorem join_split (separator : Char) (cs : List Char) :
    join separator (split separator cs) = cs := by
  induction cs with
  | nil => rfl
  | cons c cs ih =>
    cases h : split separator cs with
    | nil => exact absurd h (split_ne_nil separator cs)
    | cons p ps =>
      rw [h] at ih
      by_cases hc : c = separator
      · simp [split, hc, h, join, ih]
      · cases ps <;> simp_all [split, join]

end Conform.Text
