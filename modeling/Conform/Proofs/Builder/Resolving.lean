import Conform.Proofs.Builder.Calls

/-! Resolving a type keeps a builder valid and leaves the nodes that were there as they were. -/

namespace Conform.Builder

variable {D : Type} [DecidableEq D] {o : Oracle D} {hooks : List (Hook D)}

/-- Whether a builder comes from another one by steps that are over. -/
structure Advances (o : Oracle D) (hooks : List (Hook D)) (waiting : List NodeId)
    (b b' : Builder D) : Prop where
  valid : Valid o hooks b' waiting
  grows : b.Grows b'
  folding : b'.folding = b.folding

/-- Whether resolving a type comes to a node of that type. -/
def Resolves (o : Oracle D) (hooks : List (Hook D)) (resolve : Builder D → D → Result D NodeId) :
    Prop :=
  ∀ ⦃b b' : Builder D⦄ ⦃waiting : List NodeId⦄ ⦃d : D⦄ ⦃id : NodeId⦄, Valid o hooks b waiting →
    resolve b d = (.ok id, b') → Advances o hooks waiting b b' ∧ (d, id) ∈ b'.known

section

variable {b b' b₀ : Builder D} {waiting folded folded' : List NodeId} {ds ms : List D} {d m : D}
  {id x union : NodeId} {name : String} {k : NodeKind}
  {resolve : Builder D → D → Result D NodeId}

theorem Advances.trans {b'' : Builder D} (h : Advances o hooks waiting b b')
    (h' : Advances o hooks waiting b' b'') : Advances o hooks waiting b b'' :=
  ⟨h'.valid, h.grows.trans h'.grows, h'.folding.trans h.folding⟩

theorem Advances.field (ha : Advances o hooks waiting b b') (h : Valid o hooks b waiting)
    (hid : id ∈ waiting) {record : RecordId} {members : List (String × NodeId)}
    (hk : b.kind id = .record record members) (members' : List (String × NodeId)) :
    Valid o hooks (b'.setKind id (.record record members')) waiting ∧
      (b'.setKind id (.record record members')).kind id = .record record members' := by
  have hk' := (ha.grows.kind (h.waits id hid)).trans hk
  exact ⟨ha.valid.setKind hid (by rw [hk']; rfl), kind_setKind_self (ha.valid.waits id hid)⟩

theorem Advances.later (h : Advances o hooks waiting b b') : b.Later b' := h.grows.later

omit [DecidableEq D] in
theorem Folds.known (h : b.Folds b') : b'.known = b.known := by
  rcases h with rfl | rfl
  · rfl
  · exact known_both

theorem Folds.advances (hf : b.Folds b') (h : Valid o hooks b waiting) :
    Advances o hooks waiting b b' := by
  refine ⟨h.folds hf, hf.grows, ?_⟩
  rcases hf with rfl | rfl
  · rfl
  · exact folding_both

theorem Gathered.lt (h : Valid o hooks b waiting) (hg : Gathered o hooks b ms folded) :
    ∀ y ∈ folded, y < b.nodes.size := by
  intro y hy
  rcases hg.gathers.sound y hy with ⟨-, -, l, -, hl⟩ | ⟨hb, -⟩
  · exact h.lt hl
  · exact lt_size_of_kind (by rw [h.both y hb]; simp)

theorem leafNode_append : LeafNode o hooks b (ms ++ [m]) x ↔
    LeafNode o hooks b ms x ∨ LeafNode o hooks b [m] x := by
  constructor
  · rintro ⟨m', hm', h⟩
    rcases List.mem_append.1 hm' with hm' | hm'
    · exact Or.inl ⟨m', hm', h⟩
    · exact Or.inr ⟨m', hm', h⟩
  · rintro (⟨m', hm', h⟩ | ⟨m', hm', h⟩)
    · exact ⟨m', List.mem_append_left _ hm', h⟩
    · exact ⟨m', List.mem_append_right _ hm', h⟩

theorem leafNode_union (h : IsUnion o hooks m) :
    LeafNode o hooks b [m] x ↔ LeafNode o hooks b (o.unionMembers m) x := by
  constructor
  · rintro ⟨m', hm', l, hl, hx⟩
    rw [List.mem_singleton.1 hm', leaf_iff h] at hl
    obtain ⟨m'', hm'', hl⟩ := hl
    exact ⟨m'', hm'', l, hl, hx⟩
  · rintro ⟨m', hm', l, hl, hx⟩
    exact ⟨m, by simp, l, .member h hm' hl, hx⟩

theorem leafNode_leaf (h : ¬ IsUnion o hooks m) (hv : Valid o hooks b waiting)
    (hx : (m, x) ∈ b.known) {y : NodeId} : LeafNode o hooks b [m] y ↔ y = x := by
  constructor
  · rintro ⟨m', hm', l, hl, hy⟩
    rw [List.mem_singleton.1 hm', leaf_self_iff h] at hl
    subst hl
    exact hv.node_unique hy hx
  · rintro rfl
    exact ⟨m, by simp, m, .self h, hx⟩

theorem gathered_nil (b : Builder D) : Gathered o hooks b [] [] :=
  ⟨by simp, (Gathers.nil _).congr (by simp [LeafNode])⟩

/-- Folding in the node of a type: a union is refused while it is folded itself, and otherwise
stands for its members. -/
theorem Valid.foldMember_cases (h : Valid o hooks b waiting) (hm : (m, x) ∈ b.known)
    (union : NodeId) (folded : List NodeId) :
    (IsUnion o hooks m ∧ x ∈ b.folding ∧
        ∃ name, foldMember union b folded x = (.error (.circularUnion name), b)) ∨
      (∃ members, IsUnion o hooks m ∧ x ∉ b.folding ∧ x ∉ waiting ∧ b.kind x = .union members ∧
        foldMember union b folded x = foldLeaves union b folded members) ∨
      ¬ IsUnion o hooks m ∧ foldMember union b folded x = foldLeaf union b folded x := by
  have hs := h.suits hm
  unfold foldMember
  split
  · rename_i members hk
    have hu : IsUnion o hooks m := hs.isUnion_iff.1 (by rw [hk]; rfl)
    by_cases hopen : x ∈ b.folding
    · exact .inl ⟨hu, hopen, _, if_pos (by simpa using hopen)⟩
    · have hw : x ∉ waiting := fun hw => hopen ((h.folding x).2 ⟨hw, by rw [hk]; rfl⟩)
      exact .inr (.inl ⟨members, hu, hopen, hw, hk, if_neg (by simpa using hopen)⟩)
  · rename_i hk
    exact .inr (.inr ⟨hs.not_isUnion hk, rfl⟩)

theorem foldMember_gathered (h : Valid o hooks b waiting) (hm : (m, x) ∈ b.known)
    (hg : Gathered o hooks b ms folded) (hf : foldMember union b folded x = (.ok folded', b')) :
    b.Folds b' ∧ Gathered o hooks b' (ms ++ [m]) folded' := by
  have hX : ∀ y, LeafNode o hooks b ms y → y < b.nodes.size := by
    rintro y ⟨-, -, l, -, hl⟩
    exact h.lt hl
  rcases h.foldMember_cases hm union folded with
    ⟨-, -, name, heq⟩ | ⟨members, hu, -, hw, hk, heq⟩ | ⟨hu, heq⟩ <;> rw [heq] at hf
  · cases hf
  · obtain ⟨-, hfin⟩ := h.of_union hm hw hk
    have hfolds := folds_of_foldLeaves hf
    have hXm : ∀ y, LeafNode o hooks b (o.unionMembers m) y → y < b.nodes.size := by
      rintro y ⟨-, -, l, -, hl⟩
      exact h.lt hl
    refine ⟨hfolds, ?_, ?_⟩
    · rw [hfolds.known]
      intro m' hm' l hl
      rcases List.mem_append.1 hm' with hm' | hm'
      · exact hg.known m' hm' l hl
      · rw [List.mem_singleton.1 hm', leaf_iff hu] at hl
        obtain ⟨m'', hm'', hl⟩ := hl
        exact hfin.known m'' hm'' l hl
    · refine ((foldLeaves_gathers h.both hg.gathers hX (hfin.lt h) hf).compose
        (hfolds.bothBoolean h.both) (hfin.gathers.grow h.both hfolds.grows hXm)).congr ?_
      intro y
      rw [leafNode_append, leafNode_union hu]
      simp only [LeafNode, hfolds.known]
  · have hfolds := folds_of_foldLeaf hf
    refine ⟨hfolds, ?_, ?_⟩
    · rw [hfolds.known]
      intro m' hm' l hl
      rcases List.mem_append.1 hm' with hm' | hm'
      · exact hg.known m' hm' l hl
      · rw [List.mem_singleton.1 hm', leaf_self_iff hu] at hl
        exact ⟨x, hl ▸ hm⟩
    · refine (foldLeaf_gathers h.both hg.gathers hX hf).congr ?_
      intro y
      have hm' : (m, x) ∈ b'.known := by rwa [hfolds.known]
      rw [leafNode_append, leafNode_leaf hu (h.folds hfolds) hm']
      simp only [LeafNode, hfolds.known]

theorem resolveMembers_gathered (hr : Resolves o hooks resolve) (h : Valid o hooks b waiting)
    (hg : Gathered o hooks b ms folded)
    (hf : resolveMembers resolve union b folded ds = (.ok folded', b')) :
    Advances o hooks waiting b b' ∧ Gathered o hooks b' (ms ++ ds) folded' := by
  induction ds generalizing b folded ms with
  | nil =>
    obtain ⟨rfl, rfl⟩ : folded = folded' ∧ b = b' := by simpa [resolveMembers] using hf
    exact ⟨⟨h, .refl b, rfl⟩, by simpa using hg⟩
  | cons d ds ih =>
    simp only [resolveMembers] at hf
    split at hf
    · simp at hf
    rename_i x b₁ hd
    obtain ⟨ha, hx⟩ := hr h hd
    split at hf
    · simp at hf
    rename_i folded₂ b₂ hm
    obtain ⟨hfolds, hg₂⟩ := foldMember_gathered ha.valid hx (hg.later h ha.valid.types ha.later) hm
    obtain ⟨ha', hg'⟩ := ih (ha.valid.folds hfolds) hg₂ hf
    exact ⟨(ha.trans (hfolds.advances ha.valid)).trans ha', by simpa using hg'⟩

def FieldsKnown (b : Builder D) (fs : List (String × D)) (members : List (String × NodeId)) : Prop :=
  List.Forall₂ (fun f m => m.1 = f.1 ∧ (f.2, m.2) ∈ b.known) fs members

omit [DecidableEq D] in
theorem FieldsKnown.mono {fs : List (String × D)} {members : List (String × NodeId)}
    (h : FieldsKnown b fs members) (hk : ∀ e ∈ b.known, e ∈ b'.known) :
    FieldsKnown b' fs members :=
  List.Forall₂.imp (fun _ _ hm => ⟨hm.1, hk _ hm.2⟩) h

/-- Resolving the fields of a record adds them to its node, and changes no other node of `b₀`. -/
theorem resolveFields_known (hr : Resolves o hooks resolve) {record : RecordId}
    {fs done : List (String × D)} {members : List (String × NodeId)}
    (h : Valid o hooks b waiting) (hid : id ∈ waiting) (hk : b.kind id = .record record members)
    (hd : FieldsKnown b done members) (hb₀ : b₀.Grows b) (hid₀ : b₀.nodes.size ≤ id)
    (hf : resolveFields resolve id record b members fs = (.ok (), b')) :
    Valid o hooks b' waiting ∧ b₀.Grows b' ∧ b'.folding = b.folding ∧
      (∀ e ∈ b.known, e ∈ b'.known) ∧
      ∃ members', b'.kind id = .record record members' ∧ FieldsKnown b' (done ++ fs) members' := by
  induction fs generalizing b done members with
  | nil =>
    obtain rfl : b = b' := by simpa [resolveFields] using hf
    exact ⟨h, hb₀, rfl, fun _ h => h, members, hk, by simpa using hd⟩
  | cons f fs ih =>
    obtain ⟨name, d⟩ := f
    simp only [resolveFields] at hf
    split at hf
    · simp at hf
    rename_i x b₁ hres
    obtain ⟨ha, hx⟩ := hr h hres
    obtain ⟨h₂, hk₂⟩ := ha.field h hid hk (members ++ [(name, x)])
    have hd₂ : FieldsKnown _ (done ++ [(name, d)]) (members ++ [(name, x)]) :=
      List.rel_append (hd.mono ha.grows.known) (.cons ⟨rfl, hx⟩ .nil)
    obtain ⟨hv, hg, hfold, hkeep, members', hk', hd'⟩ :=
      ih h₂ hk₂ hd₂ ((hb₀.trans ha.grows).setKind hid₀) hf
    refine ⟨hv, hg, hfold.trans ha.folding, fun e he => hkeep e (ha.grows.known e he),
      members', hk', ?_⟩
    simpa using hd'

theorem Valid.advances (h : Valid o hooks b waiting)
    (h' : Valid o hooks b' (b.nodes.size :: waiting)) (hg : b.Grows b')
    (hd : (d, b.nodes.size) ∈ b'.known) (hfin : Finished o hooks b' d (b'.kind b.nodes.size))
    (hfold : b'.folding = b.folding ∨ b'.folding = b.nodes.size :: b.folding) :
    Advances o hooks waiting b (b'.close b.nodes.size) := by
  have hw : b.nodes.size ∉ waiting := fun hw => Nat.lt_irrefl _ (h.waits _ hw)
  refine ⟨h'.close hd hw hfin, ⟨hg.node, hg.size, hg.known, hg.both⟩, ?_⟩
  have hold : b.folding.filter (· != b.nodes.size) = b.folding := by
    rw [List.filter_eq_self]
    intro x hx
    rw [bne_iff_ne]
    rintro rfl
    exact hw ((h.folding _).1 hx).1
  rcases hfold with hfold | hfold
  · rw [Builder.close, hfold, hold]
  · simp [Builder.close, hfold, hold]

theorem finished_leaf (hk : k.isLeaf) : Finished o hooks b d k := by
  cases k with
  | array | union | record => cases hk
  | _ => trivial

theorem Valid.advances_leaf (h : Valid o hooks b waiting) (hd : ∀ id, (d, id) ∉ b.known)
    (hs : Suits o hooks d k) (hk : k.isLeaf) :
    Advances o hooks waiting b (b.start d name k) ∧
      (d, b.nodes.size) ∈ (b.start d name k).known := by
  have hu : k.isUnion = false := isUnion_leaf hk
  have hv : Valid o hooks (b.start d name k) (b.nodes.size :: waiting) :=
    h.start hd hs (by rintro r members rfl; cases hk)
  have hkind : (b.start d name k).kind b.nodes.size = k := kind_start_self
  have hmem : (d, b.nodes.size) ∈ (b.start d name k).known := by simp [Builder.start]
  have := h.advances hv grows_start hmem (by rw [hkind]; exact finished_leaf hk)
    (Or.inl (by simp [Builder.start, hu]))
  rw [hv.close_eq (by rw [hkind, hu])] at this
  exact ⟨this, hmem⟩

/-- The members of a union are resolved while its node is folded. -/
theorem union_advances (hr : Resolves o hooks resolve) (h : Valid o hooks b waiting)
    (hd : ∀ id, (d, id) ∉ b.known) (hu : IsUnion o hooks d)
    (hf : resolveMembers resolve union (b.start d name (.union [])) [] (o.unionMembers d) =
      (.ok folded, b')) :
    Advances o hooks waiting b (sealUnion b.nodes.size folded b') ∧
      (d, b.nodes.size) ∈ b'.known := by
  have hv : Valid o hooks (b.start d name (.union [])) (b.nodes.size :: waiting) :=
    h.start hd (.union hu) (by rintro r members ⟨⟩)
  have hnil : Gathered o hooks (b.start d name (.union [])) [] [] := gathered_nil _
  obtain ⟨ha, hg⟩ := resolveMembers_gathered hr hv hnil hf
  have hmem : (d, b.nodes.size) ∈ b'.known := ha.grows.known _ (by simp [start])
  have hlt : b.nodes.size < b'.nodes.size := ha.valid.lt hmem
  have hout : (NodeKind.union folded).outline = (b'.kind b.nodes.size).outline := by
    rw [ha.grows.kind_start]
    rfl
  have hset := ha.valid.setKind (by simp) hout
  have hfin : Finished o hooks (b'.setKind b.nodes.size (.union folded)) d (.union folded) :=
    Gathered.later ha.valid hset.types (by simpa using hg) (later_setKind hlt hout)
  refine ⟨h.advances hset ((grows_start.trans ha.grows).setKind (Nat.le_refl _)) hmem
    (by rwa [kind_setKind_self hlt]) (Or.inr ha.folding), hmem⟩

theorem record_advances (hr : Resolves o hooks resolve) (h : Valid o hooks b waiting)
    (hd : ∀ id, (d, id) ∉ b.known) (hh : hook? hooks d = none) (ht : o.trait? d = some .record)
    (hf : resolveFields resolve b.nodes.size b.recordCount
      (b.start d name (.record b.recordCount [])) [] (o.recordFields d) = (.ok (), b')) :
    Advances o hooks waiting b b' ∧ (d, b.nodes.size) ∈ b'.known := by
  have hv : Valid o hooks (b.start d name (.record b.recordCount [])) (b.nodes.size :: waiting) :=
    h.start hd (.record hh ht) (by rintro r members ⟨⟩; rfl)
  obtain ⟨hv', hg, hfold, hkeep, members, hk, hfields⟩ :=
    resolveFields_known hr hv (by simp) kind_start_self
      (.nil : FieldsKnown _ [] _) (grows_start : b.Grows _) (Nat.le_refl _) hf
  have hmem : (d, b.nodes.size) ∈ b'.known := hkeep _ (by simp [start])
  have := h.advances hv' hg hmem (by rw [hk]; exact hfields) (Or.inl hfold)
  rw [hv'.close_eq (by rw [hk]; rfl)] at this
  exact ⟨this, hmem⟩

theorem array_advances (hr : Resolves o hooks resolve) (h : Valid o hooks b waiting)
    (hd : ∀ id, (d, id) ∉ b.known) (hh : hook? hooks d = none) (ht : o.trait? d = some .array)
    {element : D} (he : o.arrayElement d = some element)
    (hf : resolve (b.start d name (.array none)) element = (.ok x, b')) :
    Advances o hooks waiting b (b'.setKind b.nodes.size (.array (some x))) ∧
      (d, b.nodes.size) ∈ b'.known := by
  have hv : Valid o hooks (b.start d name (.array none)) (b.nodes.size :: waiting) :=
    h.start hd (.array hh ht) (by rintro r members ⟨⟩)
  obtain ⟨ha, hx⟩ := hr hv hf
  have hmem : (d, b.nodes.size) ∈ b'.known := ha.grows.known _ (by simp [start])
  have hlt : b.nodes.size < b'.nodes.size := ha.valid.lt hmem
  have hset : Valid o hooks (b'.setKind b.nodes.size (.array (some x)))
      (b.nodes.size :: waiting) := ha.valid.setKind (by simp) (by rw [ha.grows.kind_start]; rfl)
  have hk' : (b'.setKind b.nodes.size (.array (some x))).kind b.nodes.size = .array (some x) :=
    kind_setKind_self hlt
  have := h.advances hset ((grows_start.trans ha.grows).setKind (Nat.le_refl _)) hmem
    (by rw [hk']; exact ⟨x, element, rfl, he, hx⟩) (Or.inl ha.folding)
  rw [hset.close_eq (by rw [hk']; rfl)] at this
  exact ⟨this, hmem⟩

/-- A call that succeeds comes to a node of its type if those for the parts do. -/
theorem Succeeds.advances (hr : Resolves o hooks resolve) (h : Valid o hooks b waiting)
    (hs : Succeeds o hooks resolve b d id b') :
    Advances o hooks waiting b b' ∧ (d, id) ∈ b'.known := by
  cases hs with
  | known hl => exact ⟨⟨h, .refl b, rfl⟩, (lookup_eq_some h).1 hl⟩
  | leaf hl hs hk => exact h.advances_leaf (lookup_eq_none.1 hl) hs hk
  | array hl hh ht he hx => exact array_advances hr h (lookup_eq_none.1 hl) hh ht he hx
  | record hl hh ht hf => exact record_advances hr h (lookup_eq_none.1 hl) hh ht hf
  | union hl hu hf => exact union_advances hr h (lookup_eq_none.1 hl) hu hf

theorem resolveWithin_resolves (depth : Nat) : Resolves o hooks (resolveWithin o hooks depth) := by
  induction depth with
  | zero =>
    intro b b' waiting d id h hf
    cases hf
  | succ depth ih => exact fun _ _ _ _ _ h hf => (resolveWithin_succeeds hf).advances ih h

end

end Conform.Builder
