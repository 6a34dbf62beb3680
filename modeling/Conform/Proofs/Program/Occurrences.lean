import Conform.Proofs.Program.Letters
import Conform.Proofs.Program.Looks

/-! Where statements occur in a body: in branches, and in loops, of which those around a statement
are told by their depths. -/

namespace Conform

/-- Whether a statement occurs in a body, inside loops of these depths and no others, the outermost
first. -/
inductive Occurs : List Nat → Stmt → List Stmt → Prop
  | here {s : Stmt} {body : List Stmt} (h : s ∈ body) : Occurs [] s body
  | branch {loops : List Nat} {s : Stmt} {body : List Stmt} {bs : List Branch} {o : Fallback}
      {b : Branch} (hc : .check bs o ∈ body) (hb : b ∈ bs) (h : Occurs loops s b.body) :
      Occurs loops s body
  | loop {loops : List Nat} {s : Stmt} {body inner : List Stmt} {array : Place} {depth : Nat}
      (hl : .forEach array depth inner ∈ body) (h : Occurs loops s inner) :
      Occurs (depth :: loops) s body

section

variable {loops : List Nat} {s t : Stmt} {xs ys body : List Stmt}

theorem not_occurs_nil : ¬ Occurs loops s [] := by
  intro h
  cases h with
  | here h | branch h | loop h => cases h

theorem Occurs.subset (h : Occurs loops s xs) (hs : xs ⊆ ys) : Occurs loops s ys := by
  cases h with
  | here h => exact .here (hs h)
  | branch hc hb h => exact .branch (hs hc) hb h
  | loop hl h => exact .loop (hs hl) h

theorem occurs_append : Occurs loops s (xs ++ ys) ↔ Occurs loops s xs ∨ Occurs loops s ys := by
  constructor
  · intro h
    cases h with
    | here h => exact (List.mem_append.1 h).imp .here .here
    | branch hc hb h => exact (List.mem_append.1 hc).imp (.branch · hb h) (.branch · hb h)
    | loop hl h => exact (List.mem_append.1 hl).imp (.loop · h) (.loop · h)
  · rintro (h | h)
    · exact h.subset (List.subset_append_left xs ys)
    · exact h.subset (List.subset_append_right xs ys)

theorem occurs_check {bs : List Branch} {o : Fallback} :
    Occurs loops s [.check bs o] ↔
      loops = [] ∧ s = .check bs o ∨ ∃ b ∈ bs, Occurs loops s b.body := by
  constructor
  · intro h
    cases h with
    | here h => exact .inl ⟨rfl, List.mem_singleton.1 h⟩
    | branch hc hb h =>
      cases List.mem_singleton.1 hc
      exact .inr ⟨_, hb, h⟩
    | loop hl => cases List.mem_singleton.1 hl
  · rintro (⟨rfl, rfl⟩ | ⟨b, hb, h⟩)
    · exact .here (List.mem_singleton_self _)
    · exact .branch (List.mem_singleton_self _) hb h

theorem occurs_forEach {array : Place} {depth : Nat} :
    Occurs loops s [.forEach array depth body] ↔
      loops = [] ∧ s = .forEach array depth body ∨
        ∃ inner, loops = depth :: inner ∧ Occurs inner s body := by
  constructor
  · intro h
    cases h with
    | here h => exact .inl ⟨rfl, List.mem_singleton.1 h⟩
    | branch hc => cases List.mem_singleton.1 hc
    | loop hl h =>
      cases List.mem_singleton.1 hl
      exact .inr ⟨_, rfl, h⟩
  · rintro (⟨rfl, rfl⟩ | ⟨inner, rfl, h⟩)
    · exact .here (List.mem_singleton_self _)
    · exact .loop (List.mem_singleton_self _) h

theorem occurs_singleton (hc : ∀ bs o, t ≠ .check bs o)
    (hl : ∀ array depth inner, t ≠ .forEach array depth inner) :
    Occurs loops s [t] ↔ loops = [] ∧ s = t := by
  constructor
  · intro h
    cases h with
    | here h => exact ⟨rfl, List.mem_singleton.1 h⟩
    | branch h => exact absurd (List.mem_singleton.1 h).symm (hc _ _)
    | loop h => exact absurd (List.mem_singleton.1 h).symm (hl _ _ _)
  · rintro ⟨rfl, rfl⟩
    exact .here (List.mem_singleton_self _)

end

/-! ### Counters in places and paths -/

namespace Place

def counters : Place → List Nat
  | .param => []
  | .field base _ => base.counters
  | .item base depth => base.counters ++ [depth]

theorem within_iff {p : Place} {depth : Nat} :
    p.Within depth ↔ ∀ d ∈ p.counters, d < depth := by
  induction p with
  | param => simp [Within, counters]
  | field base name ih => exact ih
  | item base d ih => simp [Within, counters, ih, or_imp, forall_and]

end Place

namespace Path

theorem within_iff {p : Path} {depth : Nat} :
    p.Within depth ↔ ∀ d, .counter d ∈ p.parts → d < depth := by
  induction p with
  | text s => simp [Within, parts]
  | given => simp [Within, parts]
  | counter d => simp [Within, parts]
  | append left right ihl ihr => simp [Within, parts, ihl, ihr, or_imp, forall_and]

theorem mem_parts_folded_of_not_fixed {p : Path} {q : PathPart} (hq : q.isFixed = false) :
    q ∈ p.folded.parts ↔ q ∈ p.parts := by
  have h := congrArg (q ∈ ·) p.filter_parts_folded
  simpa [hq] using h

theorem Within.folded {p : Path} {depth : Nat} (h : p.Within depth) : p.folded.Within depth := by
  rw [within_iff] at h ⊢
  exact fun d hd => h d ((mem_parts_folded_of_not_fixed rfl).1 hd)

end Path

def Fallback.places : Fallback → List Place
  | .convert _ target => [target]
  | .fail _ _ => []

def Fallback.paths : Fallback → List Path
  | .convert _ _ => []
  | .fail path _ => [path]

namespace Stmt

/-- The places that a statement evaluates, those of statements inside it left out. -/
def places : Stmt → List Place
  | .check branches otherwise => branches.map (·.test.place) ++ otherwise.places
  | .convert _ target => [target]
  | .forEach array _ _ => [array]
  | .call _ place _ => [place]

/-- The paths that a statement evaluates, those of statements inside it left out. -/
def paths : Stmt → List Path
  | .check _ otherwise => otherwise.paths
  | .convert _ _ => []
  | .forEach _ _ _ => []
  | .call _ _ path => [path]

/-- Whether a statement inside loops of these depths uses no counters but theirs, and is itself a
loop of the depth that comes after them if it is one. -/
structure InScope (loops : List Nat) (s : Stmt) : Prop where
  depth : ∀ array depth body, s = .forEach array depth body → depth = loops.length
  places : ∀ p ∈ s.places, ∀ d ∈ p.counters, d ∈ loops
  paths : ∀ p ∈ s.paths, ∀ d, .counter d ∈ p.parts → d ∈ loops

end Stmt

end Conform
