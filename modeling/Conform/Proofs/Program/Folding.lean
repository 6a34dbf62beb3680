import Mathlib.Tactic.Common
import Conform.Program.Path
import Conform.Proofs.Program.Slots

/-! Folding a path does not change its text: neighbouring texts are read one after the other
anyway, and empty ones add nothing. -/

namespace Conform

namespace Path

/-- The text of operands side by side. -/
def textOf (given : String) (counter : Nat → Nat) (ps : List PathPart) : String :=
  String.join (ps.map (partText given counter))

section

variable (given : String) (counter : Nat → Nat)

@[simp] theorem textOf_nil : textOf given counter [] = "" := rfl

@[simp] theorem textOf_cons (p : PathPart) (ps : List PathPart) :
    textOf given counter (p :: ps) = partText given counter p ++ textOf given counter ps := by
  simp [textOf, String.join_cons]

@[simp] theorem textOf_append (ps qs : List PathPart) :
    textOf given counter (ps ++ qs) = textOf given counter ps ++ textOf given counter qs := by
  simp [textOf, String.join_append]

theorem textOf_merge (ps : List PathPart) :
    textOf given counter (merge ps) = textOf given counter ps := by
  induction ps with
  | nil => rfl
  | cons p ps ih =>
    cases p with
    | text s =>
      rw [textOf_cons, ← ih, merge]
      split
      · rename_i t qs hm
        rw [hm]
        simp [partText, String.append_assoc]
      · simp
    | given => simp [merge, ih]
    | counter depth => simp [merge, ih]

theorem textOf_filter (ps : List PathPart) :
    textOf given counter (ps.filter fun p => p ≠ .text "") = textOf given counter ps := by
  induction ps with
  | nil => rfl
  | cons p ps ih =>
    by_cases hp : p = .text ""
    · subst hp
      simpa [partText] using ih
    · simp only [ne_eq, hp, not_false_eq_true, decide_true, List.filter_cons_of_pos, textOf_cons]
      rw [← ih]

theorem parts_toPath (p : PathPart) : p.toPath.parts = [p] := by cases p <;> rfl

theorem parts_foldl (path : Path) (ps : List PathPart) :
    (ps.foldl (fun path q => Path.append path q.toPath) path).parts = path.parts ++ ps := by
  induction ps generalizing path with
  | nil => simp
  | cons p ps ih => simp [ih, parts, parts_toPath]

theorem textOf_ofParts (ps : List PathPart) :
    textOf given counter (ofParts ps).parts = textOf given counter ps := by
  cases ps with
  | nil => simp [ofParts, parts, partText]
  | cons p ps => simp [ofParts, parts_foldl, parts_toPath]

/-- A folded path has the text that the path had. -/
theorem eval_folded (path : Path) : path.folded.eval given counter = path.eval given counter := by
  change textOf given counter path.folded.parts = textOf given counter path.parts
  rw [folded, textOf_ofParts, textOf_filter, textOf_merge]

theorem eval_append (left right : Path) :
    (Path.append left right).eval given counter =
      left.eval given counter ++ right.eval given counter :=
  textOf_append given counter left.parts right.parts

end

/-- Whether a path uses only counters of loops around a depth. -/
def Within (depth : Nat) : Path → Prop
  | .text _ | .given => True
  | .counter d => d < depth
  | .append left right => left.Within depth ∧ right.Within depth

theorem Within.mono {m n : Nat} {p : Path} (h : p.Within m) (hm : m ≤ n) : p.Within n := by
  induction p with
  | text s => trivial
  | given => trivial
  | counter d => exact Nat.lt_of_lt_of_le h hm
  | append left right ihl ihr => exact ⟨ihl h.1, ihr h.2⟩

theorem eval_agree {depth : Nat} {cs cs' : Counters} {p : Path} (hp : p.Within depth)
    (h : Counters.Agree depth cs cs') (given : String) :
    p.eval given cs'.get = p.eval given cs.get := by
  induction p with
  | text s => rfl
  | given => rfl
  | counter d =>
    change textOf given cs'.get [.counter d] = textOf given cs.get [.counter d]
    simp [partText, h.get hp]
  | append left right ihl ihr => rw [eval_append, eval_append, ihl hp.1, ihr hp.2]

end Path

end Conform
