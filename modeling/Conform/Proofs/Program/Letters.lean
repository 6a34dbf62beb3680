import Mathlib.Data.List.Chain
import Conform.Proofs.Program.Folding

/-! The folded form of a path is canonical: paths have one folded form exactly if they read the
same letter by letter, wherever one text ends and the next begins and however sums are nested. -/

namespace Conform

/-- A letter of a path: a character of a text, or an operand that is filled in later. -/
inductive PathLetter where
  | char (c : Char)
  | given
  | counter (depth : Nat)
  deriving DecidableEq, Repr

namespace PathPart

def isFixed : PathPart → Bool
  | .text _ => true
  | .given | .counter _ => false

@[simp] theorem isFixed_text (s : String) : (text s).isFixed = true := rfl

@[simp] theorem isFixed_given : given.isFixed = false := rfl

@[simp] theorem isFixed_counter (depth : Nat) : (counter depth).isFixed = false := rfl

def letters : PathPart → List PathLetter
  | .text s => s.toList.map .char
  | .given => [.given]
  | .counter depth => [.counter depth]

theorem letters_eq_nil {p : PathPart} : p.letters = [] ↔ p = .text "" := by
  cases p with
  | text s => simp [letters]
  | given => simp [letters]
  | counter depth => simp [letters]

end PathPart

namespace Path

/-- A path letter by letter. -/
def letters (path : Path) : List PathLetter := path.parts.flatMap PathPart.letters

/-- Whether no sum is the right operand of another one. -/
def LeansLeft : Path → Prop
  | .text _ | .given | .counter _ => True
  | .append left right => left.LeansLeft ∧ ∃ p : PathPart, right = p.toPath

/-- Whether no text is next to another one. -/
def Apart (ps : List PathPart) : Prop := ps.IsChain fun p q => ¬(p.isFixed ∧ q.isFixed)

/-- Operands as they are after folding: texts are apart and none is empty. -/
structure Tidy (ps : List PathPart) : Prop where
  apart : Apart ps
  full : .text "" ∉ ps

/-- Operands with neighbouring texts merged and empty ones left out. -/
def tidied (ps : List PathPart) : List PathPart := (merge ps).filter fun p => p ≠ .text ""

section

variable {p q : PathPart} {ps qs : List PathPart}

theorem apart_cons : Apart (p :: ps) ↔ (∀ q ∈ ps.head?, ¬(p.isFixed ∧ q.isFixed)) ∧ Apart ps :=
  List.isChain_cons

theorem Tidy.tail (h : Tidy (p :: ps)) : Tidy ps :=
  ⟨(apart_cons.1 h.apart).2, fun hm => h.full (List.mem_cons_of_mem p hm)⟩

theorem Tidy.text {s : String} (h : Tidy (.text s :: ps)) :
    s.toList ≠ [] ∧ ∀ c, .char c ∉ (ps.flatMap PathPart.letters).head? := by
  refine ⟨fun hs => h.full ?_, ?_⟩
  · rw [String.toList_eq_nil_iff.1 hs]
    exact List.mem_cons_self
  · cases ps with
    | nil => simp
    | cons q ps =>
      have hq : q.isFixed = false := by simpa using (apart_cons.1 h.apart).1 q rfl
      cases q with
      | text t => cases hq
      | given => simp [PathPart.letters]
      | counter depth => simp [PathPart.letters]

/-- Characters end where a letter of another kind stands, so they can be told from the rest. -/
theorem chars_append_inj {xs ys : List Char} {ls ls' : List PathLetter}
    (hl : ∀ c, .char c ∉ ls.head?) (hl' : ∀ c, .char c ∉ ls'.head?)
    (h : xs.map PathLetter.char ++ ls = ys.map PathLetter.char ++ ls') : xs = ys ∧ ls = ls' := by
  induction xs generalizing ys with
  | nil =>
    cases ys with
    | nil => exact ⟨rfl, h⟩
    | cons y ys => exact absurd (congrArg List.head? h) (hl y)
  | cons x xs ih =>
    cases ys with
    | nil => exact absurd (congrArg List.head? h).symm (hl' x)
    | cons y ys =>
      obtain ⟨hxy, hrest⟩ := List.cons.inj h
      obtain ⟨rfl, hls⟩ := ih hrest
      exact ⟨by rw [PathLetter.char.inj hxy], hls⟩

theorem Tidy.letters_cons_inj (hp : Tidy (p :: ps)) (hq : Tidy (q :: qs))
    (h : (p :: ps).flatMap PathPart.letters = (q :: qs).flatMap PathPart.letters) :
    p = q ∧ ps.flatMap PathPart.letters = qs.flatMap PathPart.letters := by
  rw [List.flatMap_cons, List.flatMap_cons] at h
  cases p with
  | text s =>
    obtain ⟨hs, hrest⟩ := hp.text
    obtain ⟨c, cs, hcs⟩ := List.exists_cons_of_ne_nil hs
    cases q with
    | text t =>
      obtain ⟨hst, hrest'⟩ := chars_append_inj hrest hq.text.2 h
      exact ⟨by rw [String.toList_inj.1 hst], hrest'⟩
    | given => simp [PathPart.letters, hcs] at h
    | counter depth => simp [PathPart.letters, hcs] at h
  | given =>
    cases q with
    | text t =>
      obtain ⟨c, cs, hcs⟩ := List.exists_cons_of_ne_nil hq.text.1
      simp [PathPart.letters, hcs] at h
    | given => exact ⟨rfl, (List.cons.inj h).2⟩
    | counter depth => simp [PathPart.letters] at h
  | counter depth =>
    cases q with
    | text t =>
      obtain ⟨c, cs, hcs⟩ := List.exists_cons_of_ne_nil hq.text.1
      simp [PathPart.letters, hcs] at h
    | given => simp [PathPart.letters] at h
    | counter depth' => simpa [PathPart.letters] using h

theorem Tidy.letters_ne_nil (h : Tidy (p :: ps)) : (p :: ps).flatMap PathPart.letters ≠ [] := by
  intro hn
  rw [List.flatMap_cons, List.append_eq_nil_iff, PathPart.letters_eq_nil] at hn
  exact h.full (hn.1 ▸ List.mem_cons_self)

/-- Tidy operands are told by their letters. -/
theorem Tidy.eq_of_letters (hp : Tidy ps) (hq : Tidy qs)
    (h : ps.flatMap PathPart.letters = qs.flatMap PathPart.letters) : ps = qs := by
  induction ps generalizing qs with
  | nil =>
    cases qs with
    | nil => rfl
    | cons q qs => exact absurd h.symm hq.letters_ne_nil
  | cons p ps ih =>
    cases qs with
    | nil => exact absurd h hp.letters_ne_nil
    | cons q qs =>
      obtain ⟨rfl, hrest⟩ := hp.letters_cons_inj hq h
      rw [ih hp.tail hq.tail hrest]

/-! ### What merging and leaving out keep -/

/-- A text in front of operands is a text in front of merged ones, or joins the first of them. -/
theorem merge_text (s : String) (ps : List PathPart) :
    (∃ t qs, merge ps = .text t :: qs ∧ merge (.text s :: ps) = .text (s ++ t) :: qs) ∨
      (∀ q ∈ (merge ps).head?, q.isFixed = false) ∧
        merge (.text s :: ps) = .text s :: merge ps := by
  rw [merge]
  split
  · rename_i t qs hm
    exact .inl ⟨t, qs, hm, rfl⟩
  · rename_i hm
    refine .inr ⟨fun q hq => ?_, rfl⟩
    cases q with
    | text t =>
      obtain ⟨qs, hqs⟩ := List.head?_eq_some_iff.1 hq
      exact absurd hqs (hm t qs)
    | given => rfl
    | counter depth => rfl

theorem merge_cons (hp : p.isFixed = false) (ps : List PathPart) :
    merge (p :: ps) = p :: merge ps := by
  cases p with
  | text s => cases hp
  | given => rfl
  | counter depth => rfl

theorem apart_merge (ps : List PathPart) : Apart (merge ps) := by
  induction ps with
  | nil => exact List.isChain_nil
  | cons p ps ih =>
    cases p with
    | text s =>
      obtain ⟨t, qs, hm, hs⟩ | ⟨hm, hs⟩ := merge_text s ps
      · rw [hm, apart_cons] at ih
        rw [hs]
        exact apart_cons.2 ih
      · rw [hs]
        exact apart_cons.2 ⟨fun q hq hf => by simp [hm q hq] at hf, ih⟩
    | given => exact apart_cons.2 ⟨fun q _ hf => by simp at hf, ih⟩
    | counter depth => exact apart_cons.2 ⟨fun q _ hf => by simp at hf, ih⟩

theorem Apart.filter_ne_empty (h : Apart ps) : Apart (ps.filter fun p => p ≠ .text "") := by
  induction ps with
  | nil => exact List.isChain_nil
  | cons p ps ih =>
    obtain ⟨hp, hps⟩ := apart_cons.1 h
    by_cases he : p = .text ""
    · simpa [he] using ih hps
    · rw [List.filter_cons_of_pos (by simpa using he)]
      refine apart_cons.2 ⟨fun q hq => ?_, ih hps⟩
      cases ps with
      | nil => simp at hq
      | cons r ps =>
        by_cases hr : r = .text ""
        · -- what stands before an empty text is none
          have hf : p.isFixed = false := by simpa [hr] using hp r rfl
          simp [hf]
        · rw [List.filter_cons_of_pos (by simpa using hr)] at hq
          exact Option.some.inj hq ▸ hp r rfl

theorem tidy_tidied (ps : List PathPart) : Tidy (tidied ps) :=
  ⟨(apart_merge ps).filter_ne_empty, by simp [tidied]⟩

theorem letters_merge (ps : List PathPart) :
    (merge ps).flatMap PathPart.letters = ps.flatMap PathPart.letters := by
  induction ps with
  | nil => rfl
  | cons p ps ih =>
    cases p with
    | text s =>
      rw [List.flatMap_cons, ← ih]
      obtain ⟨t, qs, hm, hs⟩ | ⟨-, hs⟩ := merge_text s ps
      · simp [hm, hs, PathPart.letters]
      · simp [hs]
    | given => rw [merge_cons rfl, List.flatMap_cons, ih, List.flatMap_cons]
    | counter depth => rw [merge_cons rfl, List.flatMap_cons, ih, List.flatMap_cons]

theorem letters_tidied (ps : List PathPart) :
    (tidied ps).flatMap PathPart.letters = ps.flatMap PathPart.letters := by
  rw [← letters_merge ps, tidied]
  induction merge ps with
  | nil => rfl
  | cons p ps ih =>
    by_cases he : p = .text ""
    · simpa [he, PathPart.letters] using ih
    · rw [List.filter_cons_of_pos (by simpa using he), List.flatMap_cons, ih, List.flatMap_cons]

theorem filter_merge (ps : List PathPart) :
    (merge ps).filter (!·.isFixed) = ps.filter (!·.isFixed) := by
  induction ps with
  | nil => rfl
  | cons p ps ih =>
    cases p with
    | text s =>
      rw [List.filter_cons_of_neg (by simp), ← ih]
      obtain ⟨t, qs, hm, hs⟩ | ⟨-, hs⟩ := merge_text s ps
      · simp [hm, hs]
      · simp [hs]
    | given => simp [merge, ih]
    | counter depth => simp [merge, ih]

theorem filter_tidied (ps : List PathPart) :
    (tidied ps).filter (!·.isFixed) = ps.filter (!·.isFixed) := by
  rw [tidied, List.filter_filter, ← filter_merge]
  refine List.filter_congr fun p _ => ?_
  cases p <;> simp

end

/-! ### Folded paths -/

theorem parts_ofParts {ps : List PathPart} (h : ps ≠ []) : (ofParts ps).parts = ps := by
  cases ps with
  | nil => exact absurd rfl h
  | cons p ps => simp [ofParts, parts_foldl, parts_toPath]

theorem LeansLeft.foldl {path : Path} (h : path.LeansLeft) (ps : List PathPart) :
    (ps.foldl (fun path q => Path.append path q.toPath) path).LeansLeft := by
  induction ps generalizing path with
  | nil => exact h
  | cons p ps ih => exact ih ⟨h, p, rfl⟩

theorem leansLeft_ofParts (ps : List PathPart) : (ofParts ps).LeansLeft := by
  cases ps with
  | nil => trivial
  | cons p ps =>
    have hp : p.toPath.LeansLeft := by cases p <;> trivial
    exact hp.foldl ps

theorem tidied_eq_nil {path : Path} : tidied path.parts = [] ↔ path.letters = [] := by
  rw [letters, ← letters_tidied]
  refine ⟨fun h => by rw [h]; rfl, fun h => ?_⟩
  exact (tidy_tidied _).eq_of_letters ⟨List.isChain_nil, List.not_mem_nil⟩ h

/-- A path without letters folds to the empty text, any other one to tidy operands. -/
theorem folded_cases (path : Path) :
    (path.letters = [] ∧ path.folded = .text "") ∨
      (path.letters ≠ [] ∧ path.folded.parts = tidied path.parts) := by
  by_cases h : tidied path.parts = []
  · exact .inl ⟨tidied_eq_nil.1 h, by change ofParts (tidied path.parts) = _; rw [h]; rfl⟩
  · exact .inr ⟨mt tidied_eq_nil.2 h, parts_ofParts h⟩

theorem letters_folded (path : Path) : path.folded.letters = path.letters := by
  obtain ⟨h, hf⟩ | ⟨-, hf⟩ := path.folded_cases
  · rw [hf, h]; rfl
  · rw [letters, hf, letters_tidied]; rfl

theorem folded_eq_iff {p q : Path} : p.folded = q.folded ↔ p.letters = q.letters := by
  refine ⟨fun h => by rw [← letters_folded, h, letters_folded], fun h => ?_⟩
  have htidy : tidied p.parts = tidied q.parts :=
    (tidy_tidied _).eq_of_letters (tidy_tidied _) (by rwa [letters_tidied, letters_tidied])
  exact congrArg ofParts htidy

theorem folded_folded (path : Path) : path.folded.folded = path.folded :=
  folded_eq_iff.2 path.letters_folded

theorem mem_parts_folded {path : Path} : .text "" ∈ path.folded.parts ↔ path.letters = [] := by
  obtain ⟨h, hf⟩ | ⟨h, hf⟩ := path.folded_cases
  · simp [h, hf, parts]
  · simp [h, hf, (tidy_tidied path.parts).full]

theorem apart_parts_folded (path : Path) : Apart path.folded.parts := by
  obtain ⟨-, hf⟩ | ⟨-, hf⟩ := path.folded_cases
  · rw [hf]
    exact List.isChain_singleton _
  · rw [hf]
    exact (tidy_tidied path.parts).apart

theorem filter_parts_folded (path : Path) :
    path.folded.parts.filter (!·.isFixed) = path.parts.filter (!·.isFixed) := by
  rw [← filter_tidied path.parts]
  obtain ⟨h, hf⟩ | ⟨-, hf⟩ := path.folded_cases
  · rw [hf, tidied_eq_nil.2 h]
    rfl
  · rw [hf]

/-- Folding is a canonical form. A folded path has the text that the path had; in it no text
stands next to another one, and none is empty unless there is nothing else; it leans to the
left, and the operands that are filled in later are there in their order. Two paths fold to the
same path exactly if they are the same letter by letter. -/
theorem folded_canonical (path : Path) :
    (∀ given counter, path.folded.eval given counter = path.eval given counter) ∧
      (path.folded.parts.IsChain fun p q => ¬(p.isFixed ∧ q.isFixed)) ∧
      (.text "" ∈ path.folded.parts ↔ path.letters = []) ∧
      (path.letters = [] → path.folded = .text "") ∧
      path.folded.LeansLeft ∧
      path.folded.folded = path.folded ∧
      path.folded.parts.filter (!·.isFixed) = path.parts.filter (!·.isFixed) ∧
      ∀ other : Path, path.folded = other.folded ↔ path.letters = other.letters := by
  refine ⟨fun given counter => eval_folded given counter path, path.apart_parts_folded,
    mem_parts_folded, fun h => ?_, leansLeft_ofParts _, path.folded_folded,
    path.filter_parts_folded, fun _ => folded_eq_iff⟩
  obtain ⟨-, hf⟩ | ⟨hn, -⟩ := path.folded_cases
  · exact hf
  · exact absurd h hn

example :
    (Path.append (.append .given (.text ".")) (.text "a")).folded =
      (Path.append .given (.append (.text ".a") (.text ""))).folded := by decide

end Path

end Conform
