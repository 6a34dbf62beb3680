import Conform.Proofs.Builder.Graph

/-! Folding in unions whose members may be unions in turn. A union that is not being folded has
none among its members, so that folding it in goes one level down and no further. -/

namespace Conform.Builder

variable {D : Type}

def foldEach (fold : Builder D → List NodeId → NodeId → Option (Result D (List NodeId))) :
    Builder D → List NodeId → List NodeId → Option (Result D (List NodeId))
  | b, folded, [] => some (.ok folded, b)
  | b, folded, m :: ms =>
    match fold b folded m with
    | none => none
    | some (.error e, b) => some (.error e, b)
    | some (.ok folded, b) => foldEach fold b folded ms

/-- Folds in a member. The members of a union are left to `inner`. -/
def foldWith (inner : Builder D → List NodeId → List NodeId → Option (Result D (List NodeId)))
    (union : NodeId) (b : Builder D) (folded : List NodeId) (member : NodeId) :
    Option (Result D (List NodeId)) :=
  if folded.contains member then some (.ok folded, b)
  else match b.kind member with
    | .union members =>
      if b.folding.contains member then some (.error (.circularUnion (b.name member)), b)
      else inner b folded members
    | _ => some (foldLeaf union b folded member)

/-- Folds in a member, and the members of a union in the same way. There is no result where this
goes more than `levels` down. -/
def foldNested (union : NodeId) :
    Nat → Builder D → List NodeId → NodeId → Option (Result D (List NodeId))
  | 0 => foldWith (fun _ _ _ => none) union
  | levels + 1 => foldWith (foldEach (foldNested union levels)) union

section

variable {b b' : Builder D} {folded members : List NodeId} {union member : NodeId} {levels : Nat}
  {inner : Builder D → List NodeId → List NodeId → Option (Result D (List NodeId))}

theorem foldWith_leaf (h : (b.kind member).isUnion = false) :
    foldWith inner union b folded member = some (foldLeaf union b folded member) := by
  unfold foldWith
  split
  · rename_i hmem
    rw [foldLeaf, if_pos hmem]
  · split
    · rename_i hk
      rw [hk] at h
      cases h
    · rfl

theorem foldNested_leaf (h : (b.kind member).isUnion = false) :
    foldNested union levels b folded member = some (foldLeaf union b folded member) := by
  cases levels <;> exact foldWith_leaf h

theorem Folds.isUnion (h : b.Folds b') (x : NodeId) : (b'.kind x).isUnion = (b.kind x).isUnion := by
  rcases h with rfl | rfl
  · rfl
  · rcases b.kind_both_cases x with he | ⟨he, -, rfl⟩
    · rw [he]
    · have hany : b.kind b.nodes.size = .any := by simp [kind, node?]
      rw [he, hany]
      rfl

theorem foldEach_leaves (h : ∀ m ∈ members, (b.kind m).isUnion = false) :
    foldEach (foldNested union levels) b folded members =
      some (foldLeaves union b folded members) := by
  induction members generalizing b folded with
  | nil => rfl
  | cons m ms ih =>
    rw [foldEach, foldLeaves, foldNested_leaf (h m List.mem_cons_self)]
    rcases hm : foldLeaf union b folded m with ⟨e | folded', b'⟩
    · rfl
    · have hfolds := folds_of_foldLeaf hm
      exact ih fun x hx => (hfolds.isUnion x).trans (h x (List.mem_cons_of_mem _ hx))

theorem foldWith_cases
    (inner : Builder D → List NodeId → List NodeId → Option (Result D (List NodeId)))
    (union : NodeId) (hmem : (b.kind member).isUnion → member ∉ folded) :
    foldWith inner union b folded member = some (foldMember union b folded member) ∨
      ∃ members, b.kind member = .union members ∧ member ∉ b.folding ∧
        foldWith inner union b folded member = inner b folded members ∧
        foldMember union b folded member = foldLeaves union b folded members := by
  cases hk : b.kind member with
  | union members =>
    have hnot : ¬folded.contains member = true := by simpa using hmem (by rw [hk]; rfl)
    by_cases hopen : b.folding.contains member = true
    · left
      simp only [foldWith, foldMember, if_neg hnot, hk, if_pos hopen]
    · right
      refine ⟨members, rfl, by simpa using hopen, ?_⟩
      simp only [foldWith, foldMember, if_neg hnot, hk, if_neg hopen, and_self]
  | _ =>
    left
    rw [foldWith_leaf (by rw [hk]; rfl), foldMember, hk]

end

section

variable [DecidableEq D] {o : Oracle D} {hooks : List (Hook D)} {b : Builder D}
  {waiting folded : List NodeId} {ms : List D} {union member : NodeId}

theorem Gathered.notMem (h : Valid o hooks b waiting) (hg : Gathered o hooks b ms folded)
    (hu : (b.kind member).isUnion) : member ∉ folded := fun hmem => by
  rw [h.isUnion_eq_false_of_gathered hg hmem] at hu
  cases hu

/-- One level is enough. -/
theorem Valid.foldNested_eq (h : Valid o hooks b waiting) (hg : Gathered o hooks b ms folded)
    (levels : Nat) :
    foldNested union (levels + 1) b folded member = some (foldMember union b folded member) := by
  rcases foldWith_cases (foldEach (foldNested union levels)) union (hg.notMem h) with heq |
    ⟨members, hk, hopen, heq, hfold⟩
  · exact heq
  · rw [foldNested, heq, hfold]
    exact foldEach_leaves fun x hx => h.isUnion_eq_false hk hopen hx

/-- What there is without a level is the same. -/
theorem Valid.foldMember_eq (h : Valid o hooks b waiting) (hg : Gathered o hooks b ms folded)
    {levels : Nat} {r : Result D (List NodeId)}
    (hr : foldNested union levels b folded member = some r) :
    foldMember union b folded member = r := by
  cases levels with
  | zero =>
    rcases foldWith_cases (fun _ _ _ => none) union (hg.notMem h) with heq | ⟨_, _, _, heq, _⟩
    · exact Option.some.inj (heq.symm.trans hr)
    · cases heq.symm.trans hr
  | succ levels => exact Option.some.inj ((h.foldNested_eq hg levels).symm.trans hr)

end

end Conform.Builder
