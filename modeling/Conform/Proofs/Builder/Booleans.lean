import Mathlib.Data.Bool.Basic
import Conform.Proofs.Builder.Members

/-! The booleans among the members of a union. A union has at most one boolean, and literals of at
most one value. A literal stands beside a boolean only where a member brought the opposite of at
least two others, of which the boolean takes the place of one. -/

namespace Conform

section

variable {α : Type}

/-- The members that are booleans or literals of them. -/
def parts (facet : α → Facet) (xs : List α) : List α := xs.filter fun x => (facet x).isBooleanPart

variable {facet : α → Facet} {both x y z : α} {xs ys zs folded folded' : List α} {value : Bool}

theorem mem_parts : x ∈ parts facet xs ↔ x ∈ xs ∧ (facet x).isBooleanPart := List.mem_filter

@[simp] theorem parts_nil : parts facet [] = [] := rfl

theorem parts_append (facet : α → Facet) (xs ys : List α) :
    parts facet (xs ++ ys) = parts facet xs ++ parts facet ys := List.filter_append ..

theorem parts_cons_of_part (h : (facet x).isBooleanPart) :
    parts facet (x :: xs) = x :: parts facet xs := by simp [parts, h]

theorem parts_cons_of_plain (h : (facet x).isBooleanPart = false) :
    parts facet (x :: xs) = parts facet xs := by simp [parts, h]

theorem parts_eq_nil (h : ∀ y ∈ xs, (facet y).isBooleanPart = false) : parts facet xs = [] := by
  simpa [parts] using h

theorem isBooleanPart_of_literal (h : facet x = .literal value) :
    (facet x).isBooleanPart = true := by
  rw [h]
  rfl

theorem isBooleanPart_of_boolean (h : facet x = .boolean) : (facet x).isBooleanPart = true := by
  rw [h]
  rfl

theorem ne_boolean_of_parts (hall : ∀ y ∈ parts facet xs, facet y = .literal value) (hx : x ∈ xs) :
    facet x ≠ .boolean := by
  intro hf
  cases hf.symm.trans (hall x (mem_parts.2 ⟨hx, isBooleanPart_of_boolean hf⟩))

theorem value_of_parts {u : Bool} (hall : ∀ y ∈ parts facet xs, facet y = .literal value)
    (hx : x ∈ xs) (hf : facet x = .literal u) : u = value := by
  have hlit := hall x (mem_parts.2 ⟨hx, isBooleanPart_of_literal hf⟩)
  exact Facet.literal.inj (hf.symm.trans hlit)

theorem eq_of_parts (hparts : parts facet xs = z :: zs) (hzs : ∀ y ∈ zs, facet y = .literal value)
    (hx : x ∈ xs) (hf : facet x = .boolean) : x = z := by
  have hmem : x ∈ z :: zs := hparts ▸ mem_parts.2 ⟨hx, isBooleanPart_of_boolean hf⟩
  rcases List.mem_cons.1 hmem with hxz | hmem
  · exact hxz
  · cases hf.symm.trans (hzs x hmem)

theorem mem_of_parts {u : Bool} (hparts : parts facet xs = z :: zs) (hz : facet z = .boolean)
    (hzs : ∀ y ∈ zs, facet y = .literal value) (hx : x ∈ xs) (hf : facet x = .literal u) :
    x ∈ zs ∧ u = value := by
  have hmem : x ∈ z :: zs := hparts ▸ mem_parts.2 ⟨hx, isBooleanPart_of_literal hf⟩
  rcases List.mem_cons.1 hmem with rfl | hmem
  · cases hf.symm.trans hz
  · exact ⟨hmem, Facet.literal.inj (hf.symm.trans (hzs x hmem))⟩

namespace FoldsIn

/-- Folding in a member that is no boolean leaves the booleans as they are. -/
theorem parts_of_plain (h : FoldsIn facet both x folded folded')
    (hx : (facet x).isBooleanPart = false) : parts facet folded' = parts facet folded := by
  cases h with
  | again | absorbed => rfl
  | subsumes _ hf | joins _ hf => simp [hf, Facet.isBooleanPart] at hx
  | inserts | appends => simp [parts_append, parts_cons_of_plain hx]

theorem parts_of_boolean (h : FoldsIn facet both x folded folded')
    (hz : ∃ z ∈ folded, facet z = .boolean) : parts facet folded' = parts facet folded := by
  obtain ⟨z, hmem, hz⟩ := hz
  cases h with
  | again | absorbed => rfl
  | subsumes _ _ hnone | joins _ _ hnone => exact absurd hz (hnone z hmem)
  | inserts _ hf =>
    have hx : (facet x).isBooleanPart = false := by simp [hf, Facet.isBooleanPart]
    simp [parts_append, parts_cons_of_plain hx]
  | appends _ hnone =>
    have hx : (facet x).isBooleanPart = false := by
      rw [Bool.eq_false_iff]
      exact fun hx => hnone hx z hmem hz
    simp [parts_append, parts_cons_of_plain hx]

/-- A literal comes to others of its value. -/
theorem parts_of_same (h : FoldsIn facet both x folded folded') (hx : facet x = .literal value)
    (hall : ∀ y ∈ parts facet folded, facet y = .literal value) :
    ∀ y, y ∈ parts facet folded' ↔ y ∈ parts facet folded ∨ y = x := by
  have hpx := isBooleanPart_of_literal hx
  intro y
  cases h with
  | again hmem =>
    refine ⟨Or.inl, ?_⟩
    rintro (hy | rfl)
    · exact hy
    · exact mem_parts.2 ⟨hmem, hpx⟩
  | absorbed _ _ hz =>
    obtain ⟨z, hmem, hz⟩ := hz
    exact absurd hz (ne_boolean_of_parts hall hmem)
  | subsumes _ hf | inserts _ hf => cases hf.symm.trans hx
  | joins _ hf _ _ hy =>
    cases hf.symm.trans hx
    have := value_of_parts hall (by simp) hy
    simp at this
  | appends =>
    rw [parts_append, List.mem_append, parts_cons_of_part hpx, parts_nil, List.mem_singleton]

/-- A literal takes away the first of its opposites. -/
theorem parts_of_opposite (hboth : facet both = .boolean) (h : FoldsIn facet both x folded folded')
    (hx : facet x = .literal !value) (hparts : parts facet folded = y :: ys)
    (hall : ∀ z ∈ y :: ys, facet z = .literal value) : parts facet folded' = both :: ys := by
  rw [← hparts] at hall
  have hliteral : ∀ z ∈ folded, (facet z).isBooleanPart → facet z = .literal value :=
    fun z hz hp => hall z (mem_parts.2 ⟨hz, hp⟩)
  cases h with
  | again hmem =>
    have := value_of_parts hall hmem hx
    simp at this
  | absorbed _ _ hz =>
    obtain ⟨z, hmem, hz⟩ := hz
    exact absurd hz (ne_boolean_of_parts hall hmem)
  | subsumes _ hf | inserts _ hf => cases hf.symm.trans hx
  | @joins before after y' v _ hf _ hb hy =>
    cases hf.symm.trans hx
    rw [Bool.not_not] at hb hy
    -- what is in front of the first literal is no boolean
    have hbefore : parts facet before = [] := by
      refine parts_eq_nil fun z hz => ?_
      rw [Bool.eq_false_iff]
      exact fun hp => hb z hz (hliteral z (by simp [hz]) hp)
    rw [parts_append, hbefore, parts_cons_of_part (isBooleanPart_of_literal hy)] at hparts
    rw [parts_append, hbefore, parts_cons_of_part (isBooleanPart_of_boolean hboth),
      (List.cons.inj hparts).2, List.nil_append]
  | appends _ _ _ hnone =>
    have hy : y ∈ parts facet folded := by simp [hparts]
    exact absurd (by rw [Bool.not_not]; exact hall y hy) (hnone _ hx y (mem_parts.1 hy).1)

theorem parts_of_literals (h : FoldsIn facet both x folded folded') (hx : facet x = .boolean)
    (hall : ∀ y ∈ parts facet folded, facet y = .literal value) :
    parts facet folded' = [x] := by
  have hpx := isBooleanPart_of_boolean hx
  have hliteral : ∀ z ∈ folded, (facet z).isBooleanPart → facet z = .literal value :=
    fun z hz hp => hall z (mem_parts.2 ⟨hz, hp⟩)
  have hnil : ∀ zs ⊆ folded, (∀ z ∈ zs, (facet z).isLiteral = false) → parts facet zs = [] := by
    intro zs hsub hzs
    refine parts_eq_nil fun z hz => ?_
    rw [Bool.eq_false_iff]
    intro hp
    have := hzs z hz
    rw [hliteral z (hsub hz) hp] at this
    cases this
  cases h with
  | again hmem => cases hx.symm.trans (hliteral x hmem hpx)
  | absorbed _ _ hz =>
    obtain ⟨z, hmem, hz⟩ := hz
    exact absurd hz (ne_boolean_of_parts hall hmem)
  | joins _ hf | inserts _ hf => cases hf.symm.trans hx
  | @subsumes before after y _ _ _ hb hy =>
    have hbefore := hnil before (by simp) hb
    have hafter := hnil (after.filter fun z => !(facet z).isLiteral)
      (fun z hz => by simp [(List.mem_filter.1 hz).1]) (by simp)
    rw [parts_append, parts_cons_of_part hpx, hbefore, hafter, List.nil_append]
  | appends _ _ hnone =>
    have hfolded := hnil folded (List.Subset.refl _) (hnone hx)
    rw [parts_append, parts_cons_of_part hpx, hfolded, List.nil_append, parts_nil]

end FoldsIn

/-! ### Folding in members of a union -/

variable [DecidableEq α]

theorem parts_foldl_of_boolean (hz : ∃ z ∈ xs, facet z = .boolean) (ys : List α) :
    parts facet (ys.foldl (foldBy facet both) xs) = parts facet xs := by
  induction ys generalizing xs with
  | nil => rfl
  | cons y ys ih =>
    have hy := (foldsIn_foldBy facet both xs y).parts_of_boolean hz
    obtain ⟨z, hmem, hz⟩ := hz
    have hmem' : z ∈ parts facet (foldBy facet both xs y) := by
      rw [hy]
      exact mem_parts.2 ⟨hmem, isBooleanPart_of_boolean hz⟩
    rw [List.foldl_cons, ih ⟨z, (mem_parts.1 hmem').1, hz⟩, hy]

theorem mem_parts_foldl_of_same (hxs : ∀ x ∈ parts facet xs, facet x = .literal value)
    (hys : ∀ y ∈ parts facet ys, facet y = .literal value) :
    ∀ z, z ∈ parts facet (ys.foldl (foldBy facet both) xs) ↔
      z ∈ parts facet xs ∨ z ∈ parts facet ys := by
  induction ys generalizing xs with
  | nil => simp [parts]
  | cons y ys ih =>
    have h := foldsIn_foldBy facet both xs y
    intro z
    rw [List.foldl_cons]
    cases hp : (facet y).isBooleanPart with
    | false =>
      have hpy : parts facet (y :: ys) = parts facet ys := parts_cons_of_plain hp
      rw [hpy] at hys ⊢
      have heq := h.parts_of_plain hp
      rw [ih (by rwa [heq]) hys, heq]
    | true =>
      have hpy : parts facet (y :: ys) = y :: parts facet ys := parts_cons_of_part hp
      rw [hpy] at hys ⊢
      have hy := h.parts_of_same (hys y (by simp)) hxs
      rw [ih (fun x hx => ?_) fun x hx => hys x (by simp [hx]), hy, List.mem_cons, or_assoc]
      rcases (hy x).1 hx with hx | rfl
      · exact hxs x hx
      · exact hys x (by simp)

theorem parts_foldl_of_opposite (hboth : facet both = .boolean) {x : α}
    (hparts : parts facet xs = x :: zs) (hxs : ∀ z ∈ x :: zs, facet z = .literal value)
    (hys : ∀ y ∈ parts facet ys, facet y = .literal !value) (hne : parts facet ys ≠ []) :
    parts facet (ys.foldl (foldBy facet both) xs) = both :: zs := by
  induction ys generalizing xs with
  | nil => exact absurd rfl hne
  | cons y ys ih =>
    have h := foldsIn_foldBy facet both xs y
    rw [List.foldl_cons]
    cases hp : (facet y).isBooleanPart with
    | false =>
      have hpy : parts facet (y :: ys) = parts facet ys := parts_cons_of_plain hp
      rw [hpy] at hys hne
      exact ih ((h.parts_of_plain hp).trans hparts) hys hne
    | true =>
      have hy := h.parts_of_opposite hboth (hys y (mem_parts.2 ⟨by simp, hp⟩)) hparts hxs
      have hmem : both ∈ parts facet (foldBy facet both xs y) := by simp [hy]
      rw [parts_foldl_of_boolean ⟨both, (mem_parts.1 hmem).1, hboth⟩, hy]

theorem parts_foldl_of_literals (hxs : ∀ x ∈ parts facet xs, facet x = .literal value)
    (hparts : parts facet ys = z :: zs) (hz : facet z = .boolean) :
    parts facet (ys.foldl (foldBy facet both) xs) = [z] := by
  induction ys generalizing xs with
  | nil => cases hparts
  | cons y ys ih =>
    have h := foldsIn_foldBy facet both xs y
    rw [List.foldl_cons]
    cases hp : (facet y).isBooleanPart with
    | false =>
      have hpy : parts facet (y :: ys) = parts facet ys := parts_cons_of_plain hp
      rw [hpy] at hparts
      refine ih ?_ hparts
      rwa [h.parts_of_plain hp]
    | true =>
      have hpy : parts facet (y :: ys) = y :: parts facet ys := parts_cons_of_part hp
      obtain rfl : y = z := (List.cons.inj (hpy.symm.trans hparts)).1
      have hy := h.parts_of_literals hz hxs
      have hmem : y ∈ parts facet (foldBy facet both xs y) := by simp [hy]
      rw [parts_foldl_of_boolean ⟨y, (mem_parts.1 hmem).1, hz⟩, hy]

end

/-! ### Booleans among what is left of types -/

section

variable {D : Type} [DecidableEq D] (o : Oracle D) (hooks : List (Hook D))

/-- Whether a type is what is left of one of some others. -/
def LeafOf (ds : List D) (l : D) : Prop := ∃ d ∈ ds, Leaf o hooks d l

/-- Whether there is a boolean, or both of its literals. -/
def HasBoolean (X : D → Prop) : Prop :=
  (∃ l, X l ∧ facetOf o hooks l = .boolean) ∨ ∀ value, ∃ l, X l ∧ facetOf o hooks l = .literal value

/-- Whether the types in `Y` bring a literal to at least two others of the opposite value in `X`,
where there is no boolean and there are no other literals. -/
structure Opposes (X Y : D → Prop) (value : Bool) : Prop where
  two : ∃ l l', l ≠ l' ∧ X l ∧ X l' ∧ facetOf o hooks l = .literal value ∧
    facetOf o hooks l' = .literal value
  only : ∀ l, X l → facetOf o hooks l ≠ .boolean ∧ facetOf o hooks l ≠ .literal !value
  opposite : ∃ l, Y l ∧ facetOf o hooks l = .literal !value
  alone : ∀ l, Y l → facetOf o hooks l ≠ .boolean ∧ facetOf o hooks l ≠ .literal value

/-- Whether one of some types brings a literal to two others of the types in front of it, and the
boolean that this makes takes the place of one of them alone. -/
def Overlooks (ds : List D) : Prop :=
  ∃ before m after value, ds = before ++ m :: after ∧
    Opposes o hooks (LeafOf o hooks before) (Leaf o hooks m) value

/-- Whether the booleans among pieces are those of the types in `X`, all of them literals of one
value. -/
structure LiteralsOf (X : D → Prop) (value : Bool) (ps : List (Piece D)) : Prop where
  all : ∀ p ∈ parts (Piece.facet o hooks) ps, p.facet o hooks = .literal value
  mem : ∀ l, .type l ∈ parts (Piece.facet o hooks) ps ↔ (facetOf o hooks l).isBooleanPart ∧ X l

/-- Whether the booleans among pieces come from the types in `X`, where `beside` says whether a
literal stands beside a boolean. -/
inductive BooleansOf (X : D → Prop) (beside : Prop) (ps : List (Piece D)) : Prop
  | literals (value : Bool) : LiteralsOf o hooks X value ps → ¬ beside → BooleansOf X beside ps
  | boolean (value : Bool) {z : Piece D} {zs : List (Piece D)} :
      parts (Piece.facet o hooks) ps = z :: zs → z.facet o hooks = .boolean →
      (∀ p ∈ zs, p.facet o hooks = .literal value) → HasBoolean o hooks X → (zs ≠ [] ↔ beside) →
      BooleansOf X beside ps

end

variable {D : Type} [DecidableEq D] {o : Oracle D} {hooks : List (Hook D)} {X Y : D → Prop}
  {beside beside' : Prop} {ps qs : List (Piece D)} {ds : List D} {d m : D} {value : Bool}

theorem HasBoolean.mono (h : HasBoolean o hooks X) (hXY : ∀ l, X l → Y l) :
    HasBoolean o hooks Y := by
  rcases h with ⟨l, hl, hf⟩ | h
  · exact Or.inl ⟨l, hXY l hl, hf⟩
  · refine Or.inr fun value => ?_
    obtain ⟨l, hl, hf⟩ := h value
    exact ⟨l, hXY l hl, hf⟩

theorem Opposes.not_hasBoolean_left (h : Opposes o hooks X Y value) : ¬ HasBoolean o hooks X := by
  rintro (⟨l, hl, hf⟩ | hall)
  · exact (h.only l hl).1 hf
  · obtain ⟨l, hl, hf⟩ := hall !value
    exact (h.only l hl).2 hf

theorem Opposes.not_hasBoolean_right (h : Opposes o hooks X Y value) : ¬ HasBoolean o hooks Y := by
  rintro (⟨l, hl, hf⟩ | hall)
  · exact (h.alone l hl).1 hf
  · obtain ⟨l, hl, hf⟩ := hall value
    exact (h.alone l hl).2 hf

theorem overlooks_snoc : Overlooks o hooks (ds ++ [m]) ↔
    Overlooks o hooks ds ∨ ∃ value, Opposes o hooks (LeafOf o hooks ds) (Leaf o hooks m) value := by
  constructor
  · rintro ⟨before, m', after, value, h, hm⟩
    rcases List.eq_nil_or_concat' after with rfl | ⟨after, m'', rfl⟩
    · obtain ⟨rfl, hm'⟩ := List.append_inj' h rfl
      cases hm'
      exact Or.inr ⟨value, hm⟩
    · rw [← List.cons_append, ← List.append_assoc] at h
      obtain ⟨rfl, -⟩ := List.append_inj' h rfl
      exact Or.inl ⟨before, m', after, value, rfl, hm⟩
  · rintro (⟨before, m', after, value, rfl, hm⟩ | ⟨value, hm⟩)
    · exact ⟨before, m', after ++ [m], value, by simp, hm⟩
    · exact ⟨ds, m, [], value, rfl, hm⟩

theorem leafOf_snoc (l : D) :
    LeafOf o hooks (ds ++ [m]) l ↔ LeafOf o hooks ds l ∨ Leaf o hooks m l := by
  simp [LeafOf, or_and_right, exists_or]

theorem piece_of_literal {p : Piece D} (h : p.facet o hooks = .literal value) :
    ∃ l, p = .type l ∧ facetOf o hooks l = .literal value := by
  cases p with
  | type l => exact ⟨l, rfl, h⟩
  | both => cases h

namespace LiteralsOf

variable {value' : Bool}

theorem of_plain (value : Bool) (hp : (facetOf o hooks d).isBooleanPart = false) :
    LiteralsOf o hooks (· = d) value [.type d] := by
  have hparts : parts (Piece.facet o hooks) [.type d] = [] := parts_cons_of_plain hp
  refine ⟨by simp [hparts], fun l => ?_⟩
  rw [hparts]
  refine iff_of_false List.not_mem_nil ?_
  rintro ⟨hl, rfl⟩
  cases hp.symm.trans hl

theorem of_literal (hf : facetOf o hooks d = .literal value) :
    LiteralsOf o hooks (· = d) value [.type d] := by
  have hp : (facetOf o hooks d).isBooleanPart = true := isBooleanPart_of_literal hf
  have hparts : parts (Piece.facet o hooks) [.type d] = [.type d] := parts_cons_of_part hp
  refine ⟨fun p hmem => ?_, fun l => ?_⟩
  · rw [hparts] at hmem
    obtain rfl := List.mem_singleton.1 hmem
    exact hf
  · rw [hparts, List.mem_singleton, Piece.type.injEq]
    refine ⟨?_, And.right⟩
    rintro rfl
    exact ⟨hp, rfl⟩

theorem of_nil (h : LiteralsOf o hooks X value ps) (hps : parts (Piece.facet o hooks) ps = [])
    (value' : Bool) : LiteralsOf o hooks X value' ps :=
  ⟨by simp [hps], h.mem⟩

theorem foldl (h : LiteralsOf o hooks X value ps) (h' : LiteralsOf o hooks Y value qs) :
    LiteralsOf o hooks (fun l => X l ∨ Y l) value (qs.foldl (foldPiece o hooks) ps) := by
  have hmem : ∀ p, p ∈ parts (Piece.facet o hooks) (qs.foldl (foldPiece o hooks) ps) ↔
      p ∈ parts (Piece.facet o hooks) ps ∨ p ∈ parts (Piece.facet o hooks) qs :=
    mem_parts_foldl_of_same h.all h'.all
  refine ⟨fun p hp => ?_, fun l => ?_⟩
  · rcases (hmem p).1 hp with hp | hp
    · exact h.all p hp
    · exact h'.all p hp
  · rw [hmem, h.mem, h'.mem, and_or_left]

theorem exists_of_mem (h : LiteralsOf o hooks X value ps) {p : Piece D}
    (hp : p ∈ parts (Piece.facet o hooks) ps) :
    ∃ l, p = .type l ∧ X l ∧ facetOf o hooks l = .literal value := by
  obtain ⟨l, rfl, hf⟩ := piece_of_literal (h.all p hp)
  exact ⟨l, rfl, ((h.mem l).1 hp).2, hf⟩

theorem exists_of_ne_nil (h : LiteralsOf o hooks X value ps)
    (hps : parts (Piece.facet o hooks) ps ≠ []) :
    ∃ l, X l ∧ facetOf o hooks l = .literal value := by
  obtain ⟨p, hp⟩ := List.exists_mem_of_ne_nil _ hps
  obtain ⟨l, -, hl⟩ := h.exists_of_mem hp
  exact ⟨l, hl⟩

theorem of_opposes (h : LiteralsOf o hooks X value ps) (h' : LiteralsOf o hooks Y value' qs)
    {u : Bool} (hm : Opposes o hooks X Y u) :
    u = value ∧ value' = !u ∧ parts (Piece.facet o hooks) ps ≠ [] ∧
      parts (Piece.facet o hooks) qs ≠ [] := by
  obtain ⟨l, -, -, hX, -, hf, -⟩ := hm.two
  obtain ⟨l', hY, hf'⟩ := hm.opposite
  have hl := (h.mem l).2 ⟨isBooleanPart_of_literal hf, hX⟩
  have hl' := (h'.mem l').2 ⟨isBooleanPart_of_literal hf', hY⟩
  have hu := hf.symm.trans (h.all _ hl)
  have hu' := hf'.symm.trans (h'.all _ hl')
  exact ⟨Facet.literal.inj hu, (Facet.literal.inj hu').symm, List.ne_nil_of_mem hl,
    List.ne_nil_of_mem hl'⟩

/-- Two literals or more, to which one of the opposite value comes. -/
theorem opposes_iff (hn : ps.Nodup) (h : LiteralsOf o hooks X value ps)
    (h' : LiteralsOf o hooks Y (!value) qs) {p : Piece D} {zs : List (Piece D)}
    (hps : parts (Piece.facet o hooks) ps = p :: zs) (hqs : parts (Piece.facet o hooks) qs ≠ []) :
    zs ≠ [] ↔ ∃ value, Opposes o hooks X Y value := by
  have hn : (p :: zs).Nodup := by
    rw [← hps]
    exact hn.filter _
  have hpart : ∀ {u v ps} {Z : D → Prop}, LiteralsOf o hooks Z v ps → ∀ l, Z l →
      facetOf o hooks l = u → u.isBooleanPart → u = .literal v := by
    intro u v ps Z hZ l hl hf hu
    exact hf.symm.trans (hZ.all _ ((hZ.mem l).2 ⟨by rwa [hf], hl⟩))
  constructor
  · intro hne
    obtain ⟨q, zs, rfl⟩ := List.exists_cons_of_ne_nil hne
    obtain ⟨l, rfl, hXl, hf⟩ := h.exists_of_mem (p := p) (by simp [hps])
    obtain ⟨l', rfl, hXl', hf'⟩ := h.exists_of_mem (p := q) (by simp [hps])
    refine ⟨value, ⟨l, l', ?_, hXl, hXl', hf, hf'⟩, fun l hl => ⟨fun hb => ?_, fun hb => ?_⟩,
      h'.exists_of_ne_nil hqs, fun l hl => ⟨fun hb => ?_, fun hb => ?_⟩⟩
    · rintro rfl
      simp at hn
    · cases hpart h l hl hb rfl
    · simpa using hpart h l hl hb rfl
    · cases hpart h' l hl hb rfl
    · simpa using hpart h' l hl hb rfl
  · rintro ⟨u, hm⟩ rfl
    obtain ⟨rfl, -⟩ := h.of_opposes h' hm
    obtain ⟨l, l', hne, hl, hl', hf, hf'⟩ := hm.two
    have hmem := (h.mem l).2 ⟨isBooleanPart_of_literal hf, hl⟩
    have hmem' := (h.mem l').2 ⟨isBooleanPart_of_literal hf', hl'⟩
    rw [hps, List.mem_singleton] at hmem hmem'
    exact hne (Piece.type.inj (hmem.trans hmem'.symm))

end LiteralsOf

namespace BooleansOf

theorem nil : BooleansOf o hooks (LeafOf o hooks []) (Overlooks o hooks []) [] :=
  .literals true ⟨by simp, by simp [LeafOf]⟩ (by simp [Overlooks])

theorem leaf (d : D) : BooleansOf o hooks (· = d) False [.type d] := by
  cases hf : facetOf o hooks d with
  | boolean =>
    have hparts : parts (Piece.facet o hooks) [.type d] = [.type d] :=
      parts_cons_of_part (isBooleanPart_of_boolean hf)
    exact .boolean true hparts hf (by simp) (Or.inl ⟨d, rfl, hf⟩) (by simp)
  | literal value => exact .literals value (.of_literal hf) id
  | array | record | other =>
    exact .literals true (.of_plain true (by rw [hf]; rfl)) id

/-- What folding in pieces makes of the booleans. -/
theorem foldl (hn : ps.Nodup) (h : BooleansOf o hooks X beside ps)
    (h' : BooleansOf o hooks Y beside' qs) :
    BooleansOf o hooks (fun l => X l ∨ Y l) (beside ∨ ∃ value, Opposes o hooks X Y value)
      (qs.foldl (foldPiece o hooks) ps) := by
  have hboth : Piece.facet o hooks .both = .boolean := rfl
  cases h with
  | @boolean value z zs hps hz hzs hb hbeside =>
    have hmem : z ∈ parts (Piece.facet o hooks) ps := by simp [hps]
    have hfold : parts (Piece.facet o hooks) (qs.foldl (foldPiece o hooks) ps) = z :: zs :=
      (parts_foldl_of_boolean ⟨z, (mem_parts.1 hmem).1, hz⟩ qs).trans hps
    refine .boolean value hfold hz hzs (hb.mono fun _ => Or.inl) ?_
    rw [hbeside]
    refine ⟨Or.inl, fun h => h.resolve_right ?_⟩
    rintro ⟨value, hm⟩
    exact hm.not_hasBoolean_left hb
  | literals value hl hbeside =>
    cases h' with
    | @boolean value' z zs hqs hz hzs hb =>
      refine .boolean value (parts_foldl_of_literals hl.all hqs hz) hz (by simp)
        (hb.mono fun _ => Or.inr) ?_
      refine iff_of_false (by simp) ?_
      rintro (h | ⟨value, hm⟩)
      · exact hbeside h
      · exact hm.not_hasBoolean_right hb
    | literals value' hl' hbeside' =>
      by_cases hps : parts (Piece.facet o hooks) ps = []
      · refine .literals value' ((hl.of_nil hps value').foldl hl') ?_
        rintro (h | ⟨u, hm⟩)
        · exact hbeside h
        · exact (hl.of_opposes hl' hm).2.2.1 hps
      by_cases hqs : parts (Piece.facet o hooks) qs = []
      · refine .literals value (hl.foldl (hl'.of_nil hqs value)) ?_
        rintro (h | ⟨u, hm⟩)
        · exact hbeside h
        · exact (hl.of_opposes hl' hm).2.2.2 hqs
      by_cases hv : value' = value
      · subst hv
        refine .literals value' (hl.foldl hl') ?_
        rintro (h | ⟨u, hm⟩)
        · exact hbeside h
        · obtain ⟨rfl, hu, -⟩ := hl.of_opposes hl' hm
          simp at hu
      -- both values meet, so that the first literal gives way to the boolean
      obtain rfl : value' = !value := Bool.eq_not_of_ne hv
      obtain ⟨p, zs, hparts⟩ := List.exists_cons_of_ne_nil hps
      have hall : ∀ q ∈ p :: zs, q.facet o hooks = .literal value := by
        rw [← hparts]
        exact hl.all
      refine .boolean value (parts_foldl_of_opposite hboth hparts hall hl'.all hqs) hboth
        (fun q hq => hall q (by simp [hq])) ?_ ?_
      · refine Or.inr fun u => ?_
        rcases Bool.eq_or_eq_not u value with rfl | rfl
        · obtain ⟨l, hX, hf⟩ := hl.exists_of_ne_nil hps
          exact ⟨l, Or.inl hX, hf⟩
        · obtain ⟨l, hY, hf⟩ := hl'.exists_of_ne_nil hqs
          exact ⟨l, Or.inr hY, hf⟩
      · rw [hl.opposes_iff hn hl' hparts hqs, or_iff_right hbeside]

theorem congr (h : BooleansOf o hooks X beside ps) (hXY : ∀ l, X l ↔ Y l)
    (hbeside : beside ↔ beside') : BooleansOf o hooks Y beside' ps := by
  obtain rfl : X = Y := funext fun l => propext (hXY l)
  rwa [← propext hbeside]

theorem snoc (hn : ps.Nodup)
    (h : BooleansOf o hooks (LeafOf o hooks ds) (Overlooks o hooks ds) ps)
    (h' : BooleansOf o hooks (Leaf o hooks m) beside' qs) :
    BooleansOf o hooks (LeafOf o hooks (ds ++ [m])) (Overlooks o hooks (ds ++ [m]))
      (qs.foldl (foldPiece o hooks) ps) :=
  (h.foldl hn h').congr (fun l => (leafOf_snoc l).symm) overlooks_snoc.symm

end BooleansOf

theorem LiteralsOf.not_hasBoolean (h : LiteralsOf o hooks X value ps) : ¬ HasBoolean o hooks X := by
  rintro (⟨l, hl, hf⟩ | hall)
  · have := h.all _ ((h.mem l).2 ⟨isBooleanPart_of_boolean hf, hl⟩)
    cases hf.symm.trans this
  · obtain ⟨l, hl, hf⟩ := hall !value
    have := h.all _ ((h.mem l).2 ⟨isBooleanPart_of_literal hf, hl⟩)
    simpa using Facet.literal.inj (hf.symm.trans this)

/-- The booleans among the pieces of types. -/
theorem Pieces.booleans {es : List D} (h : Pieces o hooks ps es qs) (hn : ps.Nodup)
    (hb : BooleansOf o hooks (LeafOf o hooks ds) (Overlooks o hooks ds) ps) :
    BooleansOf o hooks (LeafOf o hooks (ds ++ es)) (Overlooks o hooks (ds ++ es)) qs := by
  induction h generalizing ds with
  | nil => rwa [List.append_nil]
  | @leaf ps qs d es hd _ ih =>
    have hleaf : BooleansOf o hooks (Leaf o hooks d) False [.type d] :=
      (BooleansOf.leaf d).congr (fun l => (leaf_self_iff hd).symm) Iff.rfl
    have := ih (nodup_foldPiece hn _) (hb.snoc hn hleaf)
    rwa [List.append_assoc] at this
  | @union ps qs ms d es hd _ _ ihm ih =>
    have hm : BooleansOf o hooks (Leaf o hooks d) _ ms :=
      (ihm List.nodup_nil .nil).congr (fun l => (leaf_iff hd).symm) Iff.rfl
    have := ih (nodup_foldl_foldPiece hn ms) (hb.snoc hn hm)
    rwa [List.append_assoc] at this

namespace Builder

/-- What a node is to folding. -/
def facetAt (b : Builder D) (x : NodeId) : Facet := (b.kind x).facet

omit [DecidableEq D] in
theorem isBoolean_iff {b : Builder D} {x : NodeId} : b.isBoolean x ↔ b.facetAt x = .boolean := by
  rw [congrFun b.facets.1 x, beq_iff_eq]
  rfl

omit [DecidableEq D] in
theorem booleanLiteral?_iff {b : Builder D} {x : NodeId} :
    b.booleanLiteral? x = some value ↔ b.facetAt x = .literal value := by
  obtain ⟨-, -, -, -, hvalue⟩ := b.facets
  have := congrFun (hvalue value) x
  rw [← beq_iff_eq, this, beq_iff_eq]
  rfl

/-- The booleans among members are those among their pieces. -/
theorem Valid.booleans {b : Builder D} {waiting members : List NodeId}
    (h : b.Valid o hooks waiting) (hb : BooleansOf o hooks X beside ps)
    (hm : List.Forall₂ b.IsPiece ps members) :
    (¬ HasBoolean o hooks X ∧ ¬ beside ∧ ∃ value, ∀ x ∈ parts b.facetAt members,
      b.facetAt x = .literal value) ∨
    (HasBoolean o hooks X ∧ ∃ z zs value, parts b.facetAt members = z :: zs ∧
      b.facetAt z = .boolean ∧ (∀ x ∈ zs, b.facetAt x = .literal value) ∧ (zs ≠ [] ↔ beside)) := by
  have hfacet : ∀ {p x}, b.IsPiece p x → p.facet o hooks = b.facetAt x :=
    fun hp => h.isPiece_facet hp
  have hparts : List.Forall₂ b.IsPiece (parts (Piece.facet o hooks) ps)
      (parts b.facetAt members) :=
    List.rel_filter (fun p x hp => by simp only [hfacet hp]) hm
  cases hb with
  | literals value hl hbeside =>
    refine Or.inl ⟨hl.not_hasBoolean, hbeside, value, fun x hx => ?_⟩
    obtain ⟨p, hp, hpx⟩ := exists_of_mem_right hparts hx
    rw [← hfacet hpx, hl.all p hp]
  | @boolean value z zs hps hz hzs hX hbeside =>
    rw [hps] at hparts
    obtain ⟨x, xs, hzx, hrest, hxs⟩ := List.forall₂_cons_left_iff.1 hparts
    refine Or.inr ⟨hX, x, xs, value, hxs, (hfacet hzx).symm.trans hz, fun y hy => ?_, ?_⟩
    · obtain ⟨p, hp, hpy⟩ := exists_of_mem_right hrest hy
      rw [← hfacet hpy, hzs p hp]
    · rw [← hbeside, not_iff_not]
      constructor
      · rintro rfl
        cases hrest
        rfl
      · rintro rfl
        cases hrest
        rfl

/-- A union has at most one boolean, which is there exactly if the types that are left of it have
one or both of its literals, and literals of at most one value. A literal stands beside a boolean
exactly if a member brings the opposite of two others. -/
theorem resolve_union_booleans (o : Oracle D) (hooks : List (Hook D)) (requests : List (Request D))
    (roots : List Model.Root) (b b' : Builder D) (d : D) (id : NodeId)
    (h : resolveRoots o hooks .empty requests = .ok (roots, b)) (hu : IsUnion o hooks d)
    (hd : b.resolve o hooks d = (.ok id, b')) :
    ∃ members, b'.kind id = .union members ∧ members.Nodup ∧
      (∀ x ∈ members, ∀ y ∈ members, b'.isBoolean x → b'.isBoolean y → x = y) ∧
      (∀ x ∈ members, ∀ y ∈ members, ∀ u v, b'.booleanLiteral? x = some u →
        b'.booleanLiteral? y = some v → u = v) ∧
      ((∃ x ∈ members, b'.isBoolean x) ↔ HasBoolean o hooks (Leaf o hooks d)) ∧
      ((∃ x ∈ members, b'.isBoolean x) ∧ (∃ y ∈ members, (b'.booleanLiteral? y).isSome) ↔
        Overlooks o hooks (o.unionMembers d)) := by
  obtain ⟨ha, -⟩ := resolveRoots_advances valid_empty h
  obtain ⟨hp, -⟩ := (resolveRoots_runs valid_empty h).pieced .empty
  obtain ⟨ha', hid⟩ := resolveWithin_resolves _ ha.valid hd
  obtain ⟨hp', -⟩ := (resolveWithin_runs _ ha.valid hd).pieced hp
  obtain ⟨members, hk⟩ := (ha'.valid.suits hid).eq_union hu
  obtain ⟨ps, hps, hm⟩ := hp'.pieces hid List.not_mem_nil hk
  have hn : members.Nodup :=
    (List.rel_nodup (ha'.valid.isPiece_unique hp') hm).1 (hps.nodup List.nodup_nil)
  have hb : BooleansOf o hooks (Leaf o hooks d) (Overlooks o hooks (o.unionMembers d)) ps :=
    (hps.booleans List.nodup_nil .nil).congr (fun l => (leaf_iff hu).symm) Iff.rfl
  refine ⟨members, hk, hn, ?_⟩
  simp only [isBoolean_iff, booleanLiteral?_iff, Option.isSome_iff_exists]
  rcases ha'.valid.booleans hb hm with ⟨hno, hbeside, value, hall⟩ |
    ⟨hyes, z, zs, value, hparts, hz, hzs, hbeside⟩
  · have hnone : ¬ ∃ x ∈ members, b'.facetAt x = .boolean := by
      rintro ⟨x, hx, hf⟩
      exact ne_boolean_of_parts hall hx hf
    refine ⟨fun x hx y _ hf _ => absurd ⟨x, hx, hf⟩ hnone, fun x hx y hy u v hf hf' => ?_,
      iff_of_false hnone hno, iff_of_false (fun h => hnone h.1) hbeside⟩
    exact (value_of_parts hall hx hf).trans (value_of_parts hall hy hf').symm
  · have hzmem : z ∈ members := (mem_parts.1 (by rw [hparts]; simp)).1
    refine ⟨fun x hx y hy hf hf' => ?_, fun x hx y hy u v hf hf' => ?_,
      iff_of_true ⟨z, hzmem, hz⟩ hyes, ?_⟩
    · exact (eq_of_parts hparts hzs hx hf).trans (eq_of_parts hparts hzs hy hf').symm
    · obtain ⟨-, hu⟩ := mem_of_parts hparts hz hzs hx hf
      obtain ⟨-, hv⟩ := mem_of_parts hparts hz hzs hy hf'
      exact hu.trans hv.symm
    rw [← hbeside]
    constructor
    · rintro ⟨-, y, hy, u, hf⟩ rfl
      cases (mem_of_parts hparts hz hzs hy hf).1
    · intro hne
      obtain ⟨y, hy⟩ := List.exists_mem_of_ne_nil zs hne
      have hymem : y ∈ members := (mem_parts.1 (by rw [hparts]; simp [hy])).1
      exact ⟨⟨z, hzmem, hz⟩, y, hymem, value, hzs y hy⟩

/-- Two types that are `true` and one that is `false`. -/
def doubled : Oracle Nat where
  descriptors := List.range 4
  is d t := [(0, Trait.union), (1, .booleanLiteral), (2, .booleanLiteral),
    (3, .booleanLiteral)].contains (d, t)
  unionMembers d := if d = 0 then [1, 2, 3] else []
  recordFields _ := []
  arrayElement _ := none
  literalValue d := if d = 0 then none else some (.boolean (d < 3))
  typeName d := toString d

theorem resolve_union_booleans_doubled : ∃ id b' members, IsUnion doubled [] 0 ∧
    resolveRoots doubled [] .empty [] = .ok ([], .empty) ∧
    empty.resolve doubled [] 0 = (.ok id, b') ∧ b'.kind id = .union members ∧ members.Nodup ∧
    (∃ x ∈ members, b'.isBoolean x) ∧ (∃ y ∈ members, (b'.booleanLiteral? y).isSome) ∧
    Overlooks doubled [] [1, 2, 3] := by
  have hu : IsUnion doubled [] 0 := by decide
  obtain ⟨id, hid⟩ : ∃ id, (empty.resolve doubled [] 0).1 = .ok id :=
    exists_of_isOk (by decide +kernel)
  have hd : empty.resolve doubled [] 0 = (.ok id, (empty.resolve doubled [] 0).2) :=
    Prod.ext hid rfl
  obtain ⟨members, hk, hn, -, -, -, hbeside⟩ :=
    resolve_union_booleans doubled [] [] [] .empty _ 0 id rfl hu hd
  have hleaf : ∀ d ∈ [1, 2, 3], ¬ IsUnion doubled [] d := by decide
  have hself : ∀ d ∈ [1, 2, 3], ∀ l, Leaf doubled [] d l ↔ l = d :=
    fun d hd l => leaf_self_iff (hleaf d hd)
  have hfacet : facetOf doubled [] 1 = .literal true ∧ facetOf doubled [] 2 = .literal true ∧
    facetOf doubled [] 3 = .literal false := by decide
  have hmet : Overlooks doubled [] [1, 2, 3] := by
    refine ⟨[1, 2], 3, [], true, rfl, ⟨⟨1, 2, by simp, ?_, ?_, ?_, ?_⟩, ?_, ?_, ?_⟩⟩ <;>
      simp [LeafOf, hself, hfacet]
  obtain ⟨hb, hl⟩ := hbeside.2 hmet
  exact ⟨id, _, members, hu, rfl, hd, hk, hn, hb, hl, hmet⟩

theorem literal_beside_boolean : ¬ ∀ (o : Oracle Nat) (hooks : List (Hook Nat)) (d : Nat)
    (id : NodeId) (b : Builder Nat) (members : List NodeId), IsUnion o hooks d →
    empty.resolve o hooks d = (.ok id, b) → b.kind id = .union members →
    ¬ ((∃ x ∈ members, b.isBoolean x) ∧ ∃ y ∈ members, (b.booleanLiteral? y).isSome) := by
  intro h
  have hk : (empty.resolve doubled [] 0).2.kind 0 = .union [4, 2] := by decide +kernel
  have hid : (empty.resolve doubled [] 0).1 = .ok 0 := by rfl
  exact h doubled [] 0 0 _ [4, 2] (by decide) (Prod.ext hid rfl) hk (by decide +kernel)

end Builder

end Conform
