import Conform.Proofs.Builder.Valid

/-! The steps of a builder keep it valid: a new node, a node with more of its parts, a node that
has all of them, and the node of both booleans. -/

namespace Conform.Builder

variable {D : Type} [DecidableEq D] {o : Oracle D} {hooks : List (Hook D)}

def recordsOf : NodeKind → Nat
  | .record _ _ => 1
  | _ => 0

/-- A builder with a new node for a type. The node of a union is being folded. -/
def start (b : Builder D) (d : D) (name : String) (k : NodeKind) : Builder D where
  nodes := b.nodes.push ⟨name, k⟩
  known := (d, b.nodes.size) :: b.known
  recordCount := b.recordCount + recordsOf k
  bothBooleans := b.bothBooleans
  folding := if k.isUnion then b.nodes.size :: b.folding else b.folding

/-- A builder that folds a node no longer. -/
def close (b : Builder D) (id : NodeId) : Builder D :=
  { b with folding := b.folding.filter (· != id) }

section

variable {b b' : Builder D} {waiting : List NodeId} {d : D} {id : NodeId} {name : String}
  {k : NodeKind}

omit [DecidableEq D] in
theorem kind_start : (b.start d name k).kind id = if id = b.nodes.size then k else b.kind id := by
  simp only [kind, node?, start, Array.getElem?_push]
  split_ifs <;> rfl

omit [DecidableEq D] in
theorem kind_start_self : (b.start d name k).kind b.nodes.size = k := by
  rw [kind_start, if_pos rfl]

omit [DecidableEq D] in
theorem grows_start : b.Grows (b.start d name k) := by
  refine ⟨?_, by simp [start], fun e he => List.mem_cons_of_mem _ he, fun _ h => h⟩
  intro id hid
  simp [node?, start, Array.getElem?_push, Nat.ne_of_lt hid]

omit [DecidableEq D] in
theorem Grows.kind_start (h : (b.start d name k).Grows b') : b'.kind b.nodes.size = k := by
  rw [h.kind (by simp [Builder.start]), kind_start_self]

omit [DecidableEq D] in
theorem kind_setKind {x : NodeId} (hid : id < b.nodes.size) :
    (b.setKind id k).kind x = if x = id then k else b.kind x := by
  simp only [kind, node?, setKind, Array.getElem?_modify]
  by_cases hx : x = id
  · subst hx
    simp [hid]
  · simp [hx, Ne.symm hx]

omit [DecidableEq D] in
theorem kind_setKind_self (hid : id < b.nodes.size) : (b.setKind id k).kind id = k := by
  rw [kind_setKind hid, if_pos rfl]

omit [DecidableEq D] in
theorem later_setKind (hid : id < b.nodes.size) (hk : k.outline = (b.kind id).outline) :
    b.Later (b.setKind id k) := by
  refine ⟨fun _ h => h, fun x _ => ?_, fun _ h => h⟩
  rw [kind_setKind hid]
  split_ifs with hx
  · rw [hx, hk]
  · rfl

omit [DecidableEq D] in
/-- Later changes to nodes that an earlier builder does not have are nothing to it. -/
theorem Grows.setKind {b₀ : Builder D} (h : b₀.Grows b) (hid : b₀.nodes.size ≤ id) :
    b₀.Grows (b.setKind id k) := by
  refine ⟨?_, by simpa [Builder.setKind] using h.size, h.known, h.both⟩
  intro x hx
  have hne : ¬ id = x := fun he => Nat.lt_irrefl x (Nat.lt_of_lt_of_le hx (he ▸ hid))
  rw [← h.node x hx]
  simp [node?, Builder.setKind, Array.getElem?_modify, hne]

omit [DecidableEq D] in
theorem mem_known_start {e : D} {x : NodeId} : (e, x) ∈ (b.start d name k).known ↔
    (e = d ∧ x = b.nodes.size) ∨ (e, x) ∈ b.known := by
  rw [start, List.mem_cons, Prod.mk.injEq]

omit [DecidableEq D] in
theorem mem_folding_start {x : NodeId} : x ∈ (b.start d name k).folding ↔
    (x = b.nodes.size ∧ k.isUnion) ∨ x ∈ b.folding := by
  unfold start
  dsimp only
  split_ifs with hu <;> simp [hu]

omit [DecidableEq D] in
/-- A record of the new builder is the new node, or one from before. -/
theorem record_start {x : NodeId} {r : RecordId} {members : List (String × NodeId)}
    (hr : ∀ r members, k = .record r members → r = b.recordCount)
    (hx : (b.start d name k).kind x = .record r members) :
    (x = b.nodes.size ∧ r = b.recordCount ∧ recordsOf k = 1) ∨ b.kind x = .record r members := by
  rw [kind_start] at hx
  split_ifs at hx with hxs
  · subst hx
    exact Or.inl ⟨hxs, hr r members rfl, rfl⟩
  · exact Or.inr hx

theorem Valid.types_start (h : Valid o hooks b waiting) (hd : ∀ id, (d, id) ∉ b.known) :
    ((b.start d name k).known.map (·.1)).Nodup := by
  rw [Builder.start, List.map_cons, List.nodup_cons]
  refine ⟨fun hmem => ?_, h.types⟩
  obtain ⟨⟨e, x⟩, hx, rfl⟩ := List.mem_map.1 hmem
  exact hd x hx

theorem Valid.kind_start_of_known (h : Valid o hooks b waiting) {e : D} {x : NodeId}
    (hx : (e, x) ∈ b.known) : (b.start d name k).kind x = b.kind x := by
  rw [kind_start, if_neg (Nat.ne_of_lt (h.lt hx))]

theorem Valid.start (h : Valid o hooks b waiting) (hd : ∀ id, (d, id) ∉ b.known)
    (hs : Suits o hooks d k) (hr : ∀ r members, k = .record r members → r = b.recordCount) :
    Valid o hooks (b.start d name k) (b.nodes.size :: waiting) := by
  have hsize : (b.start d name k).nodes.size = b.nodes.size + 1 := by simp [Builder.start]
  have htypes : ((b.start d name k).known.map (·.1)).Nodup := h.types_start hd
  exact {
    lt := by
      intro e x hx
      rw [hsize]
      rcases mem_known_start.1 hx with ⟨-, rfl⟩ | hx
      · exact Nat.lt_succ_self _
      · exact Nat.lt_succ_of_lt (h.lt hx)
    types := htypes
    ids := by
      rw [Builder.start, List.map_cons, List.nodup_cons]
      refine ⟨fun hmem => ?_, h.ids⟩
      obtain ⟨⟨e, x⟩, hx, hxs⟩ := List.mem_map.1 hmem
      exact Nat.ne_of_lt (h.lt hx) hxs
    nodes := by
      intro x hx
      by_cases hxs : x = b.nodes.size
      · exact Or.inl ⟨d, mem_known_start.2 (Or.inl ⟨rfl, hxs⟩)⟩
      · rw [hsize] at hx
        have hlt := Nat.lt_of_le_of_ne (Nat.le_of_lt_succ hx) hxs
        exact (h.nodes x hlt).imp_left fun ⟨e, he⟩ => ⟨e, mem_known_start.2 (Or.inr he)⟩
    both := by
      intro x hx
      have hb := h.both x hx
      have hlt : x < b.nodes.size := lt_size_of_kind (by rw [hb]; simp)
      rw [kind_start, if_neg (Nat.ne_of_lt hlt), hb]
    suits := by
      intro e x hx
      rcases mem_known_start.1 hx with ⟨rfl, rfl⟩ | hx
      · rwa [kind_start_self]
      · rw [h.kind_start_of_known hx]
        exact h.suits hx
    finished := by
      intro e x hx hw
      rw [List.mem_cons, not_or] at hw
      rcases mem_known_start.1 hx with ⟨-, rfl⟩ | hx
      · exact absurd rfl hw.1
      · rw [h.kind_start_of_known hx]
        exact Finished.later h htypes (h.finished hx hw.2) grows_start.later
    waits := by
      intro x hx
      rw [hsize]
      rcases List.mem_cons.1 hx with rfl | hx
      · exact Nat.lt_succ_self _
      · exact Nat.lt_succ_of_lt (h.waits x hx)
    folding := by
      intro x
      have hnew : b.nodes.size ∉ waiting := fun hx => Nat.lt_irrefl _ (h.waits _ hx)
      rw [mem_folding_start, kind_start, List.mem_cons, h.folding x]
      by_cases hxs : x = b.nodes.size
      · subst hxs
        simp [hnew]
      · simp [hxs]
    counted := by
      intro x r members hx
      rcases record_start hr hx with ⟨-, rfl, hone⟩ | hx
      · rw [Builder.start, hone]
        exact Nat.lt_succ_self _
      · exact Nat.lt_of_lt_of_le (h.counted hx) (Nat.le_add_right _ _)
    records := by
      intro i j r members members' hi hj
      -- the number of the new record is the count, which is above all older ones
      rcases record_start hr hi with ⟨rfl, rfl, -⟩ | hi
      · rcases record_start hr hj with ⟨rfl, -, -⟩ | hj
        · rfl
        · exact absurd (h.counted hj) (Nat.lt_irrefl _)
      · rcases record_start hr hj with ⟨-, rfl, -⟩ | hj
        · exact absurd (h.counted hi) (Nat.lt_irrefl _)
        · exact h.records hi hj }

omit [DecidableEq D] in
theorem record_setKind {x : NodeId} {r : RecordId} {members : List (String × NodeId)}
    (hid : id < b.nodes.size) (hk : k.outline = (b.kind id).outline)
    (hx : (b.setKind id k).kind x = .record r members) :
    ∃ members', b.kind x = .record r members' := by
  rw [kind_setKind hid] at hx
  split_ifs at hx with hxs
  · subst hxs hx
    cases hb : b.kind x <;> simp_all [NodeKind.outline]
  · exact ⟨members, hx⟩

omit [DecidableEq D] in
theorem isUnion_setKind {x : NodeId} (hid : id < b.nodes.size)
    (hk : k.outline = (b.kind id).outline) :
    ((b.setKind id k).kind x).isUnion = (b.kind x).isUnion := by
  rw [kind_setKind hid]
  split_ifs with hxs
  · subst hxs
    cases hb : b.kind x <;> cases k <;> simp_all [NodeKind.outline, NodeKind.isUnion]
  · rfl

theorem Valid.setKind (h : Valid o hooks b waiting) (hid : id ∈ waiting)
    (hk : k.outline = (b.kind id).outline) : Valid o hooks (b.setKind id k) waiting := by
  have hlt := h.waits id hid
  have hkind : ∀ {x}, (b.setKind id k).kind x = if x = id then k else b.kind x :=
    kind_setKind hlt
  exact {
    lt := fun hx => by simpa [Builder.setKind] using h.lt hx
    types := h.types
    ids := h.ids
    nodes := fun x hx => h.nodes x (by simpa [Builder.setKind] using hx)
    both := by
      intro x hx
      have hb := h.both x hx
      rw [hkind]
      split_ifs with hxs
      · subst hxs
        rw [hb] at hk
        cases k <;> simp_all [NodeKind.outline]
      · exact hb
    suits := by
      intro e x hx
      rw [hkind]
      split_ifs with hxs
      · subst hxs
        exact (h.suits hx).of_outline hk
      · exact h.suits hx
    finished := by
      intro e x hx hw
      have hxs : x ≠ id := fun he => hw (he ▸ hid)
      rw [hkind, if_neg hxs]
      exact Finished.later h h.types (h.finished hx hw) (later_setKind hlt hk)
    waits := fun x hx => by simpa [Builder.setKind] using h.waits x hx
    folding := by
      intro x
      rw [isUnion_setKind hlt hk]
      exact h.folding x
    counted := by
      intro x r members hx
      obtain ⟨members', hx⟩ := record_setKind hlt hk hx
      exact h.counted hx
    records := by
      intro i j r members members' hi hj
      obtain ⟨_, hi⟩ := record_setKind hlt hk hi
      obtain ⟨_, hj⟩ := record_setKind hlt hk hj
      exact h.records hi hj }

theorem Valid.close (h : Valid o hooks b (id :: waiting)) (hd : (d, id) ∈ b.known)
    (hw : id ∉ waiting) (hf : Finished o hooks b d (b.kind id)) :
    Valid o hooks (b.close id) waiting := by
  have hl : b.Later (b.close id) := ⟨fun _ h => h, fun _ _ => rfl, fun _ h => h⟩
  refine ⟨h.lt, h.types, h.ids, h.nodes, h.both, h.suits, ?_, ?_, ?_, h.counted, h.records⟩
  · intro e x hx hxw
    by_cases hxs : x = id
    · subst hxs
      rw [h.type_unique hx hd]
      exact Finished.later h h.types hf hl
    · exact Finished.later h h.types (h.finished hx (by simp [hxs, hxw])) hl
  · exact fun x hx => h.waits x (List.mem_cons_of_mem _ hx)
  · intro x
    have := h.folding x
    simp only [Builder.close, List.mem_filter, bne_iff_ne, this, List.mem_cons]
    constructor
    · rintro ⟨⟨hx | hx, hu⟩, hne⟩
      · exact absurd hx hne
      · exact ⟨hx, hu⟩
    · rintro ⟨hx, hu⟩
      exact ⟨⟨Or.inr hx, hu⟩, fun he => hw (he ▸ hx)⟩

/-- Nothing but unions is folded. -/
theorem Valid.close_eq (h : Valid o hooks b waiting) (hu : (b.kind id).isUnion = false) :
    b.close id = b := by
  have : b.folding.filter (· != id) = b.folding := by
    rw [List.filter_eq_self]
    intro x hx
    rw [bne_iff_ne]
    rintro rfl
    simp [((h.folding x).1 hx).2] at hu
  rw [Builder.close, this]

omit [DecidableEq D] in
theorem kind_both_cases (b : Builder D) (x : NodeId) : b.both.2.kind x = b.kind x ∨
    b.both.2.kind x = .boolean ∧ b.bothBooleans = none ∧ x = b.nodes.size := by
  unfold both
  cases hb : b.bothBooleans with
  | some id => exact Or.inl rfl
  | none =>
    simp only [kind, node?, addNode, Array.getElem?_push]
    split_ifs with hx
    · exact Or.inr ⟨rfl, trivial, hx⟩
    · exact Or.inl rfl

omit [DecidableEq D] in
theorem record_both {x : NodeId} {r : RecordId} {members : List (String × NodeId)}
    (hx : b.both.2.kind x = .record r members) : b.kind x = .record r members := by
  rcases b.kind_both_cases x with he | ⟨he, -⟩
  · rw [← he, hx]
  · rw [he] at hx
    cases hx

omit [DecidableEq D] in
theorem eq_both_of_le {x : NodeId} (hx : x < b.both.2.nodes.size) (hle : b.nodes.size ≤ x) :
    x = b.both.1 := by
  unfold both at hx ⊢
  cases hb : b.bothBooleans with
  | some id =>
    rw [hb] at hx
    exact absurd hx (Nat.not_lt_of_le hle)
  | none =>
    rw [hb] at hx
    simp only [addNode, Array.size_push] at hx ⊢
    exact Nat.le_antisymm (Nat.le_of_lt_succ hx) hle

/-- The node of both booleans may be made at any time. -/
theorem Valid.both_valid (h : Valid o hooks b waiting) : Valid o hooks b.both.2 waiting := by
  have hg : b.Grows b.both.2 := grows_both
  have htypes : (b.both.2.known.map (·.1)).Nodup := by
    rw [known_both]
    exact h.types
  exact {
    lt := by
      intro e x hx
      rw [known_both] at hx
      exact Nat.lt_of_lt_of_le (h.lt hx) hg.size
    types := htypes
    ids := by
      rw [known_both]
      exact h.ids
    nodes := by
      intro x hx
      by_cases hlt : x < b.nodes.size
      · rw [known_both]
        exact (h.nodes x hlt).imp_right (hg.both x)
      · right
        rw [bothBooleans_both, eq_both_of_le hx (Nat.le_of_not_lt hlt)]
    both := h.both.both
    suits := by
      intro e x hx
      rw [known_both] at hx
      rw [hg.kind (h.lt hx)]
      exact h.suits hx
    finished := by
      intro e x hx hw
      rw [known_both] at hx
      rw [hg.kind (h.lt hx)]
      exact Finished.later h htypes (h.finished hx hw) hg.later
    waits := fun x hx => Nat.lt_of_lt_of_le (h.waits x hx) hg.size
    folding := by
      intro x
      rw [folding_both, h.folding x]
      rcases b.kind_both_cases x with he | ⟨he, -, rfl⟩
      · rw [he]
      · have hw : b.nodes.size ∉ waiting := fun hx => Nat.lt_irrefl _ (h.waits _ hx)
        simp [hw]
    counted := by
      intro x r members hx
      rw [recordCount_both]
      exact h.counted (record_both hx)
    records := fun hi hj => h.records (record_both hi) (record_both hj) }

theorem Valid.folds (h : Valid o hooks b waiting) (hf : b.Folds b') :
    Valid o hooks b' waiting := by
  rcases hf with rfl | rfl
  · exact h
  · exact h.both_valid

end

end Conform.Builder
