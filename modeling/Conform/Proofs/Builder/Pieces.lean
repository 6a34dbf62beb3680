import Conform.Proofs.Builder.Runs

/-! The members of a union in their order. They are those that a fold of the types of the union
leaves, which knows nothing of nodes, of what else was resolved, or of when. -/

namespace Conform

/-- What folding asks of a member. -/
inductive Facet where
  | boolean
  | literal (value : Bool)
  | array
  | record
  | other
  deriving DecidableEq

def Facet.isLiteral : Facet → Bool
  | .literal _ => true
  | _ => false

def literalFacet : Literal → Facet
  | .boolean value => .literal value
  | _ => .other

def NodeKind.facet : NodeKind → Facet
  | .boolean => .boolean
  | .literal value => literalFacet value
  | .array _ => .array
  | .record _ _ => .record
  | _ => .other

section

variable {α β : Type}

/-- Folds a leaf into others, where `both` stands for two booleans. Conversions never meet. -/
def foldBy [DecidableEq α] (facet : α → Facet) (both : α) (folded : List α) (x : α) : List α :=
  if x ∈ folded then folded
  else match facet x with
    | .boolean =>
      if folded.any (facet · == .boolean) then folded
      else match folded.findIdx? fun y => (facet y).isLiteral with
        | none => folded ++ [x]
        | some i =>
          folded.take i ++ x :: (folded.drop (i + 1)).filter fun y => !(facet y).isLiteral
    | .literal value =>
      if folded.any (facet · == .boolean) then folded
      else match folded.findIdx? (facet · == .literal !value) with
        | none => folded ++ [x]
        | some i => folded.set i both
    | .array =>
      match folded.findIdx? (facet · == .record) with
      | none => folded ++ [x]
      | some i => folded.take i ++ x :: folded.drop i
    | _ => folded ++ [x]

section

variable [DecidableEq α] {facet : α → Facet} {both x : α} {xs : List α}

theorem foldBy_absorbed (hf : facet x = .boolean ∨ (facet x).isLiteral)
    (hany : xs.any (facet · == .boolean)) : foldBy facet both xs x = xs := by
  unfold foldBy
  cases hk : facet x <;> simp_all [Facet.isLiteral]

theorem foldBy_snoc (hx : x ∉ xs) (hf : facet x = .record ∨ facet x = .other) :
    foldBy facet both xs x = xs ++ [x] := by
  rw [foldBy, if_neg hx]
  rcases hf with hf | hf <;> rw [hf]

end

variable {S T : α → β → Prop} {xs : List α} {ys : List β} {p : α → Bool} {q : β → Bool}

theorem forall₂_imp_mem (h : List.Forall₂ S xs ys) (hT : ∀ x, ∀ y ∈ ys, S x y → T x y) :
    List.Forall₂ T xs ys := by
  induction h with
  | nil => exact .nil
  | cons hxy _ ih =>
    rw [List.forall₂_cons]
    exact ⟨hT _ _ List.mem_cons_self hxy, ih fun x y hy => hT x y (List.mem_cons_of_mem _ hy)⟩

theorem findIdx?_rel (h : List.Forall₂ S xs ys) (hpq : ∀ ⦃x y⦄, S x y → p x = q y) :
    xs.findIdx? p = ys.findIdx? q := by
  induction h with
  | nil => rfl
  | cons hxy _ ih => rw [List.findIdx?_cons, List.findIdx?_cons, hpq hxy, ih]

theorem any_rel (h : List.Forall₂ S xs ys) (hpq : ∀ ⦃x y⦄, S x y → p x = q y) :
    xs.any p = ys.any q := by
  induction h with
  | nil => rfl
  | cons hxy _ ih => rw [List.any_cons, List.any_cons, hpq hxy, ih]

theorem set_rel (h : List.Forall₂ S xs ys) {x : α} {y : β} (hxy : S x y) (i : Nat) :
    List.Forall₂ S (xs.set i x) (ys.set i y) := by
  induction h generalizing i with
  | nil => exact .nil
  | cons hab h ih =>
    cases i with
    | zero => exact .cons hxy h
    | succ i => exact .cons hab (ih i)

theorem snoc_rel (h : List.Forall₂ S xs ys) {x : α} {y : β} (hxy : S x y) :
    List.Forall₂ S (xs ++ [x]) (ys ++ [y]) :=
  List.rel_append h (.cons hxy .nil)

/-- Folding depends on nothing but which members are the same, and on their facets. -/
theorem foldBy_rel [DecidableEq α] [DecidableEq β] {facet : α → Facet} {facet' : β → Facet}
    {both : α} {both' : β} (hS : Relator.BiUnique S) (hf : ∀ ⦃x y⦄, S x y → facet x = facet' y)
    (hST : ∀ ⦃x y⦄, S x y → T x y) (hboth : T both both') (hxs : List.Forall₂ S xs ys) {x : α}
    {y : β} (hxy : S x y) :
    List.Forall₂ T (foldBy facet both xs x) (foldBy facet' both' ys y) := by
  have h : List.Forall₂ T xs ys := hxs.imp hST
  have hmem : x ∈ xs ↔ y ∈ ys := List.rel_mem hS hxy hxs
  have hany : xs.any (facet · == .boolean) = ys.any (facet' · == .boolean) :=
    any_rel hxs fun _ _ hs => by rw [hf hs]
  unfold foldBy
  rw [hf hxy, hany]
  by_cases hx : x ∈ xs
  · rw [if_pos hx, if_pos (hmem.1 hx)]
    exact h
  rw [if_neg hx, if_neg (mt hmem.2 hx)]
  cases facet' y with
  | boolean =>
    dsimp only
    rw [findIdx?_rel hxs fun _ _ hs => by rw [hf hs]]
    split_ifs
    · exact h
    · cases ys.findIdx? fun y => (facet' y).isLiteral with
      | none => exact snoc_rel h (hST hxy)
      | some i =>
        refine List.rel_append (List.forall₂_take i h) (.cons (hST hxy) ?_)
        refine (List.rel_filter (fun _ _ hs => ?_) (List.forall₂_drop (i + 1) hxs)).imp hST
        simp [hf hs]
  | literal value =>
    dsimp only
    rw [findIdx?_rel hxs fun _ _ hs => by rw [hf hs]]
    split_ifs
    · exact h
    · cases ys.findIdx? fun y => facet' y == .literal !value with
      | none => exact snoc_rel h (hST hxy)
      | some i => exact set_rel h hboth i
  | array =>
    dsimp only
    rw [findIdx?_rel hxs fun _ _ hs => by rw [hf hs]]
    cases ys.findIdx? fun y => facet' y == .record with
    | none => exact snoc_rel h (hST hxy)
    | some i =>
      exact List.rel_append (List.forall₂_take i h) (.cons (hST hxy) (List.forall₂_drop i h))
  | record | other => exact snoc_rel h (hST hxy)

end

/-! ### Pieces -/

/-- A member of a folded union: a type, or `true` and `false` together. -/
inductive Piece (D : Type) where
  | type (d : D)
  | both
  deriving DecidableEq

section

variable {D : Type} [DecidableEq D] (o : Oracle D) (hooks : List (Hook D))

def facetOf (d : D) : Facet :=
  match hook? hooks d, o.trait? d with
  | none, some .boolean => .boolean
  | none, some .array => .array
  | none, some .record => .record
  | none, some t =>
    if t.isLiteral then ((o.literalValue d).map literalFacet).getD .other else .other
  | _, _ => .other

def Piece.facet : Piece D → Facet
  | .type d => facetOf o hooks d
  | .both => .boolean

def foldPiece : List (Piece D) → Piece D → List (Piece D) := foldBy (Piece.facet o hooks) .both

/-- Whether pieces come from others by folding in types, of which unions are folded by themselves
before. -/
inductive Pieces : List (Piece D) → List D → List (Piece D) → Prop
  | nil {ps : List (Piece D)} : Pieces ps [] ps
  | leaf {ps qs : List (Piece D)} {d : D} {ds : List D} : ¬ IsUnion o hooks d →
      Pieces (foldPiece o hooks ps (.type d)) ds qs → Pieces ps (d :: ds) qs
  | union {ps qs ms : List (Piece D)} {d : D} {ds : List D} : IsUnion o hooks d →
      Pieces [] (o.unionMembers d) ms → Pieces (ms.foldl (foldPiece o hooks) ps) ds qs →
      Pieces ps (d :: ds) qs

end

variable {D : Type} [DecidableEq D] {o : Oracle D} {hooks : List (Hook D)}

theorem Suits.facet {d : D} {k : NodeKind} (h : Suits o hooks d k) :
    k.facet = facetOf o hooks d := by
  unfold facetOf
  cases h with
  | conversion hh => simp [hh, NodeKind.facet]
  | @simple t k hn ht hk =>
    rw [hn, ht]
    cases t <;> simp only [Trait.kind?, reduceCtorEq, Option.some.injEq] at hk <;> subst hk <;> rfl
  | @literal t value hn ht hl hv =>
    cases t <;> simp_all [Trait.isLiteral, NodeKind.facet]
  | array hn ht => simp [hn, ht, NodeKind.facet]
  | union hu => simp [hu.1, hu.2, NodeKind.facet, Trait.isLiteral]
  | record hn ht => simp [hn, ht, NodeKind.facet]

namespace Builder

def IsPiece (b : Builder D) : Piece D → NodeId → Prop
  | .type d, id => (d, id) ∈ b.known
  | .both, id => b.bothBooleans = some id

/-- Whether the members of unions are their pieces, and no type has the node of both booleans. -/
structure Pieced (o : Oracle D) (hooks : List (Hook D)) (b : Builder D) (waiting : List NodeId) :
    Prop where
  apart : ∀ {d id}, (d, id) ∈ b.known → b.bothBooleans ≠ some id
  pieces : ∀ {d id members}, (d, id) ∈ b.known → id ∉ waiting → b.kind id = .union members →
    ∃ ps, Pieces o hooks [] (o.unionMembers d) ps ∧ List.Forall₂ b.IsPiece ps members

section

variable {b b' : Builder D} {waiting folded folded' members : List NodeId} {d : D}
  {id x union : NodeId} {name : String} {k : NodeKind} {ps qs : List (Piece D)} {p : Piece D}

omit [DecidableEq D] in
theorem IsPiece.later (h : b.IsPiece p x) (hl : b.Later b') : b'.IsPiece p x := by
  cases p with
  | type d => exact hl.known _ h
  | both => exact hl.both x h

omit [DecidableEq D] in
theorem pieces_later (h : List.Forall₂ b.IsPiece ps folded) (hl : b.Later b') :
    List.Forall₂ b'.IsPiece ps folded :=
  h.imp fun _ _ hp => hp.later hl

theorem Valid.isPiece_unique (h : Valid o hooks b waiting) (hp : Pieced o hooks b waiting) :
    Relator.BiUnique b.IsPiece := by
  constructor
  · rintro (d | _) (d' | _) x hd hd'
    · rw [h.type_unique hd hd']
    · exact absurd hd' (hp.apart hd)
    · exact absurd hd (hp.apart hd')
    · rfl
  · rintro (d | _) x y hx hy
    · exact h.node_unique hx hy
    · exact Option.some.inj (hx.symm.trans hy)

theorem Valid.isPiece_facet (h : Valid o hooks b waiting) ⦃p : Piece D⦄ ⦃x : NodeId⦄
    (hp : b.IsPiece p x) : p.facet o hooks = (b.kind x).facet := by
  cases p with
  | type d => exact (h.suits hp).facet.symm
  | both => rw [h.both x hp]; rfl

omit [DecidableEq D] in
theorem facets (b : Builder D) :
    (b.isBoolean = fun y => (b.kind y).facet == .boolean) ∧
      (b.isRecord = fun y => (b.kind y).facet == .record) ∧
      ((fun y => (b.booleanLiteral? y).isSome) = fun y => (b.kind y).facet.isLiteral) ∧
      ((fun y => (b.booleanLiteral? y).isNone) = fun y => !(b.kind y).facet.isLiteral) ∧
      ∀ value, (fun y => b.booleanLiteral? y == some value) =
        fun y => (b.kind y).facet == .literal value := by
  refine ⟨?_, ?_, ?_, ?_, fun value => ?_⟩ <;> funext y <;>
    simp only [isBoolean, isRecord, booleanLiteral?] <;> cases b.kind y with
    | literal l => cases l <;> simp [NodeKind.facet, literalFacet, Facet.isLiteral]
    | _ => rfl

omit [DecidableEq D] in
/-- Folding in a leaf makes the node of both booleans only to use it. -/
theorem foldLeaf_eq (h : foldLeaf union b folded x = (.ok folded', b')) :
    folded' = foldBy (fun y => (b.kind y).facet) b.both.1 folded x ∧
      (b' = b.both.2 ∨ b' = b ∧ folded' ⊆ x :: folded) := by
  obtain ⟨hboolean, hrecord, hsome, hnone, hvalue⟩ := b.facets
  have hsnoc : folded ++ [x] ⊆ x :: folded := by simp
  have hself : folded ⊆ x :: folded := List.subset_cons_self _ _
  cases leafFold h with
  | present hx => exact ⟨by rw [foldBy, if_pos hx], Or.inr ⟨rfl, hself⟩⟩
  | absorbed hx hpart hany =>
    refine ⟨(foldBy_absorbed ?_ (hboolean ▸ hany)).symm, Or.inr ⟨rfl, hself⟩⟩
    rw [← congrFun hsome x, ← beq_iff_eq, ← congrFun hboolean x]
    simpa [isBooleanPart] using hpart
  | boolean hx hk hany =>
    refine ⟨?_, Or.inr ⟨rfl, fun y hy => ?_⟩⟩
    · have hf : (b.kind x).facet = .boolean := by rw [hk]; rfl
      simp only [foldBy, if_neg hx, hf, ← hboolean, ← hsome, ← hnone, hany]
      rfl
    · rcases mem_foldBoolean.1 hy with rfl | ⟨hy, -⟩
      · exact List.mem_cons_self
      · exact List.mem_cons_of_mem _ hy
  | @literal value hx hk hany =>
    have hf : (b.kind x).facet = .literal value := by rw [hk]; rfl
    simp only [foldBy, if_neg hx, hf, ← hboolean, ← hvalue, hany]
    unfold foldBooleanLiteral
    cases folded.findIdx? fun m => b.booleanLiteral? m == some !value with
    | none => exact ⟨rfl, Or.inr ⟨rfl, hsnoc⟩⟩
    | some i => exact ⟨rfl, Or.inl rfl⟩
  | array hx hk =>
    refine ⟨?_, Or.inr ⟨rfl, fun y hy => ?_⟩⟩
    · have hf : (b.kind x).facet = .array := by rw [hk]; rfl
      simp only [foldBy, if_neg hx, hf, ← hrecord]
      rfl
    · rcases mem_foldArray.1 hy with hy | rfl
      · exact List.mem_cons_of_mem _ hy
      · exact List.mem_cons_self
  | other hx hpart harray =>
    have hf : (b.kind x).facet = .record ∨ (b.kind x).facet = .other := by
      cases hk : b.kind x with
      | literal l =>
        cases l <;> simp_all [isBooleanPart, booleanLiteral?, NodeKind.facet, literalFacet]
      | _ => simp_all [isBooleanPart, isBoolean, NodeKind.facet]
    exact ⟨(foldBy_snoc hx hf).symm, Or.inr ⟨rfl, hsnoc⟩⟩

theorem Pieced.both (hp : Pieced o hooks b waiting) (h : Valid o hooks b waiting) :
    Pieced o hooks b.both.2 waiting := by
  refine ⟨fun {e x} hx => ?_, fun {e x members} hx hw hk => ?_⟩
  · rw [known_both] at hx
    unfold Builder.both
    cases hb : b.bothBooleans with
    | some z => exact hp.apart hx
    | none =>
      intro he
      exact Nat.ne_of_lt (h.lt hx) (Option.some.inj he).symm
  · rw [known_both] at hx
    rw [grows_both.kind (h.lt hx)] at hk
    obtain ⟨ps, hps, hm⟩ := hp.pieces hx hw hk
    exact ⟨ps, hps, pieces_later hm grows_both.later⟩

theorem Pieced.folds (hp : Pieced o hooks b waiting) (h : Valid o hooks b waiting)
    (hf : b.Folds b') : Pieced o hooks b' waiting := by
  rcases hf with rfl | rfl
  · exact hp
  · exact hp.both h

/-- Folding in the node of a piece is folding in the piece. -/
theorem foldLeaf_pieces (h : Valid o hooks b waiting) (hp : Pieced o hooks b waiting)
    (hps : List.Forall₂ b.IsPiece ps folded) (hx : b.IsPiece p x)
    (hf : foldLeaf union b folded x = (.ok folded', b')) :
    List.Forall₂ b'.IsPiece (foldPiece o hooks ps p) folded' := by
  obtain ⟨rfl, hb⟩ := foldLeaf_eq hf
  have hold : ∀ ⦃p : Piece D⦄ ⦃x : NodeId⦄, b.IsPiece p x → b.both.2.IsPiece p x :=
    fun _ _ hp => hp.later grows_both.later
  have hfold : List.Forall₂ b.both.2.IsPiece (foldPiece o hooks ps p)
      (foldBy (fun y => (b.kind y).facet) b.both.1 folded x) :=
    foldBy_rel (h.isPiece_unique hp) h.isPiece_facet hold
      (show b.both.2.IsPiece .both _ from bothBooleans_both) hps hx
  rcases hb with rfl | ⟨rfl, hsub⟩
  · exact hfold
  -- nothing but pieces from before was used
  refine forall₂_imp_mem hfold fun q y hy hq => ?_
  obtain ⟨q', hq'⟩ : ∃ q', b'.IsPiece q' y := by
    rcases List.mem_cons.1 (hsub hy) with rfl | hy
    · exact ⟨p, hx⟩
    · obtain ⟨q', -, hq'⟩ := exists_of_mem_right hps hy
      exact ⟨q', hq'⟩
  rwa [(h.both_valid.isPiece_unique (hp.both h)).1 hq (hold hq')]

theorem foldLeaves_pieces {leaves : List NodeId} (h : Valid o hooks b waiting)
    (hp : Pieced o hooks b waiting) (hps : List.Forall₂ b.IsPiece ps folded)
    (hqs : List.Forall₂ b.IsPiece qs leaves)
    (hf : foldLeaves union b folded leaves = (.ok folded', b')) :
    List.Forall₂ b'.IsPiece (qs.foldl (foldPiece o hooks) ps) folded' := by
  induction leaves generalizing b folded ps qs with
  | nil =>
    cases hqs
    obtain ⟨rfl, rfl⟩ : folded = folded' ∧ b = b' := by simpa [foldLeaves] using hf
    exact hps
  | cons x xs ih =>
    cases hqs with
    | cons hq hqs =>
      simp only [foldLeaves] at hf
      split at hf
      · simp at hf
      · rename_i folded₁ b₁ he
        have hfolds := folds_of_foldLeaf he
        rw [List.foldl_cons]
        exact ih (h.folds hfolds) (hp.folds h hfolds) (foldLeaf_pieces h hp hps hq he)
          (pieces_later hqs hfolds.grows.later) hf

/-- What a task comes to in terms of pieces. -/
def Task.Pieced (o : Oracle D) (hooks : List (Hook D)) (b b' : Builder D) : Task D → Prop
  | .members _ folded ds folded' => ∀ ps, List.Forall₂ b.IsPiece ps folded →
      ∃ qs, Pieces o hooks ps ds qs ∧ List.Forall₂ b'.IsPiece qs folded'
  | .fields id _ _ _ => (b.kind id).isUnion = false → (b'.kind id).isUnion = false
  | _ => True

theorem Pieced.empty : Pieced o hooks (empty : Builder D) [] :=
  ⟨fun hd => absurd hd List.not_mem_nil, fun hd => absurd hd List.not_mem_nil⟩

theorem Pieced.start (hp : Pieced o hooks b waiting) (h : Valid o hooks b waiting) :
    Pieced o hooks (b.start d name k) (b.nodes.size :: waiting) := by
  refine ⟨fun {e x} hx he => ?_, fun {e x members} hx hw hk => ?_⟩
  · rcases mem_known_start.1 hx with ⟨-, rfl⟩ | hx
    · exact Nat.lt_irrefl _ (lt_size_of_kind (by rw [h.both _ he]; simp))
    · exact hp.apart hx he
  · rw [List.mem_cons, not_or] at hw
    rcases mem_known_start.1 hx with ⟨-, rfl⟩ | hx
    · exact absurd rfl hw.1
    · rw [h.kind_start_of_known hx] at hk
      obtain ⟨ps, hps, hm⟩ := hp.pieces hx hw.2 hk
      exact ⟨ps, hps, pieces_later hm grows_start.later⟩

theorem Pieced.setKind (hp : Pieced o hooks b waiting) (h : Valid o hooks b waiting)
    (hid : id ∈ waiting) : Pieced o hooks (b.setKind id k) waiting := by
  refine ⟨hp.apart, fun {e x members} hx hw hk => ?_⟩
  have hne : x ≠ id := fun he => hw (he ▸ hid)
  rw [kind_setKind (h.waits id hid), if_neg hne] at hk
  exact hp.pieces hx hw hk

theorem Pieced.drop (hp : Pieced o hooks b (id :: waiting)) (hu : (b.kind id).isUnion = false) :
    Pieced o hooks b waiting := by
  refine ⟨hp.apart, fun {e x members} hx hw hk => hp.pieces hx ?_ hk⟩
  rw [List.mem_cons, not_or]
  refine ⟨?_, hw⟩
  rintro rfl
  rw [hk] at hu
  cases hu

theorem Pieced.close (hp : Pieced o hooks b (id :: waiting)) (h : Valid o hooks b (id :: waiting))
    (hd : (d, id) ∈ b.known) (hk : b.kind id = .union members)
    (hps : Pieces o hooks [] (o.unionMembers d) ps) (hm : List.Forall₂ b.IsPiece ps members) :
    Pieced o hooks (b.close id) waiting := by
  refine ⟨hp.apart, fun {e x members'} hx hw hk' => ?_⟩
  by_cases hxs : x = id
  · subst hxs
    obtain rfl := NodeKind.union.inj (hk.symm.trans hk')
    rw [h.type_unique hx hd]
    exact ⟨ps, hps, hm⟩
  · exact hp.pieces hx (by simp [hxs, hw]) hk'

/-- A run leaves the members of unions as their pieces. -/
theorem Runs.pieced {task : Task D} (h : Runs o hooks waiting b task b')
    (hp : Pieced o hooks b waiting) :
    Pieced o hooks b' waiting ∧ task.Pieced o hooks b b' := by
  induction h with
  | known _ hd => exact ⟨hp, trivial⟩
  | @leaf waiting b d k hv hd hs hk =>
    refine ⟨(hp.start hv).drop ?_, trivial⟩
    rw [kind_start_self, isUnion_leaf hk]
  | @array waiting b b' d element x hv hd hh ht he _ ha hx ih =>
    obtain ⟨hp', -⟩ := ih (hp.start hv)
    refine ⟨(hp'.setKind ha.valid (by simp)).drop ?_, trivial⟩
    rw [kind_setKind_self (ha.valid.waits _ (by simp))]
    rfl
  | @union waiting folded b b' d hv hd hu _ ha ih =>
    obtain ⟨hp', hm⟩ := ih (hp.start hv)
    obtain ⟨ps, hps, hm⟩ := hm [] .nil
    have hlt : b.nodes.size < b'.nodes.size := ha.valid.waits _ (by simp)
    have hout : (NodeKind.union folded).outline = (b'.kind b.nodes.size).outline := by
      rw [ha.grows.kind_start]
      rfl
    exact ⟨(hp'.setKind ha.valid (by simp)).close (ha.valid.setKind (by simp) hout)
      (ha.grows.known _ (by simp [Builder.start])) (kind_setKind_self hlt) hps
      (pieces_later hm (later_setKind hlt hout)), trivial⟩
  | @record waiting b b' d hv hd hh ht _ ih =>
    obtain ⟨hp', hk⟩ := ih (hp.start hv)
    refine ⟨hp'.drop (hk ?_), trivial⟩
    rw [kind_start_self]
    rfl
  | noMembers => exact ⟨hp, fun ps hps => ⟨ps, .nil, hps⟩⟩
  | @member waiting folded folded₁ folded' b b₁ b₂ b' d ds union x hv _ ha hx hm _ ih ih' =>
    obtain ⟨hp₁, -⟩ := ih hp
    have hfolds := folds_of_foldMember hm
    obtain ⟨hp', hrest⟩ := ih' (hp₁.folds ha.valid hfolds)
    refine ⟨hp', fun ps hps => ?_⟩
    have hps := pieces_later hps ha.later
    rcases ha.valid.foldMember_cases hx union folded with
      ⟨-, -, name, heq⟩ | ⟨members, hu, -, hw, hk, heq⟩ | ⟨hu, heq⟩ <;> rw [heq] at hm
    · cases hm
    · obtain ⟨ms, hms, hmembers⟩ := hp₁.pieces hx hw hk
      obtain ⟨qs, hqs, hq⟩ := hrest _ (foldLeaves_pieces ha.valid hp₁ hps hmembers hm)
      exact ⟨qs, .union hu hms hqs, hq⟩
    · obtain ⟨qs, hqs, hq⟩ := hrest _ (foldLeaf_pieces ha.valid hp₁ hps
        (show b₁.IsPiece (.type d) x from hx) hm)
      exact ⟨qs, .leaf hu hqs, hq⟩
  | noFields => exact ⟨hp, fun h => h⟩
  | @field waiting b b₁ b' d name fs id x record members hv hid _ ha _ hk _ ih ih' =>
    obtain ⟨hp₁, -⟩ := ih hp
    obtain ⟨hp', hrest⟩ := ih' (hp₁.setKind ha.valid hid)
    refine ⟨hp', fun _ => hrest ?_⟩
    rw [kind_setKind_self (ha.valid.waits id hid)]
    rfl
  | noTypes => exact ⟨hp, trivial⟩
  | types _ _ _ _ _ ih ih' =>
    obtain ⟨hp₁, -⟩ := ih hp
    exact ⟨(ih' hp₁).1, trivial⟩

end

end Builder

end Conform
