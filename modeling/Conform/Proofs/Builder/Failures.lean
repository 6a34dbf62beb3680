import Conform.Proofs.Builder.Lenient
import Conform.Proofs.Builder.Walking

/-! Calls after calls that failed. A call that fails leaves the node of its type as far as it came,
and the next call for the type hands out that node. -/

namespace Conform.Builder

variable {D : Type} [DecidableEq D]

/-! ### Calls one after another -/

def resolveEach (o : Oracle D) (hooks : List (Hook D)) (b : Builder D) : List D → Builder D
  | [] => b
  | d :: ds => resolveEach o hooks (b.resolve o hooks d).2 ds

def failedCall (d : D) : Except CompileError NodeId → List D
  | .error _ => [d]
  | .ok _ => []

section

variable (o : Oracle D) (resolve : Builder D → D → Result D NodeId)
  (failed : Builder D → D → List D)

def failedMembers (union : NodeId) : Builder D → List NodeId → List D → List D
  | _, _, [] => []
  | b, folded, d :: ds => failed b d ++
    match resolve b d with
    | (.error _, _) => []
    | (.ok member, b) =>
      match foldMember union b folded member with
      | (.error _, _) => []
      | (.ok folded, b) => failedMembers union b folded ds

def failedFields (id : NodeId) (record : RecordId) :
    Builder D → List (String × NodeId) → List (String × D) → List D
  | _, _, [] => []
  | b, done, (name, d) :: fs => failed b d ++
    match resolve b d with
    | (.error _, _) => []
    | (.ok member, b) =>
      let done := done ++ [(name, member)]
      failedFields id record (b.setKind id (.record record done)) done fs

/-- The types for which calls failed that were made for the parts of a new type. -/
def failedParts (b : Builder D) (d : D) : List D :=
  match o.trait? d with
  | some .union => failedMembers resolve failed b.nodes.size
      (b.start d (o.typeName d) (.union [])) [] (o.unionMembers d)
  | some .record => failedFields resolve failed b.nodes.size b.recordCount
      (b.start d (o.typeName d) (.record b.recordCount [])) [] (o.recordFields d)
  | some .array => match o.arrayElement d with
    | none => []
    | some element => failed (b.start d (o.typeName d) (.array none)) element
  | _ => []

end

/-- The types for which calls failed while a type was resolved, those for its parts before its own.
A call that ends for lack of depth does not look at its type, and is not among them. -/
def failedWithin (o : Oracle D) (hooks : List (Hook D)) : Nat → Builder D → D → List D
  | 0, _, _ => []
  | depth + 1, b, d =>
    match b.known.lookup d, hook? hooks d with
    | none, none =>
      failedParts o (resolveWithin o hooks depth) (failedWithin o hooks depth) b d ++
        failedCall d (resolveWithin o hooks (depth + 1) b d).1
    | _, _ => []

/-- The types for which calls failed, of a sequence of calls and of all that they led to. -/
def failures (o : Oracle D) (hooks : List (Hook D)) (b : Builder D) : List D → List D
  | [] => []
  | d :: ds => failedWithin o hooks (o.descriptors.length + 2) b d ++
      failures o hooks (b.resolve o hooks d).2 ds

/-! ### Nodes that are complete, and nodes that are not -/

/-- Whether a node has all that its type asks for: its kind, its parts, and for a union the members
that were folded. -/
structure Complete (o : Oracle D) (hooks : List (Hook D)) (b : Builder D) (d : D) (id : NodeId) :
    Prop where
  suits : Suits o hooks d (b.kind id)
  finished : Finished o hooks b d (b.kind id)
  folded : id ∉ b.folding

/-- How a failed call leaves the node of its type. -/
inductive Halted (o : Oracle D) (hooks : List (Hook D)) (b : Builder D) (d : D) (id : NodeId) : Prop
  | refused : hook? hooks d = none → o.refuses d → Halted o hooks b d id
  | array : b.kind id = .array none → Halted o hooks b d id
  | record {r : RecordId} {members : List (String × NodeId)} : b.kind id = .record r members →
      members.length < (o.recordFields d).length → Halted o hooks b d id
  | folding : id ∈ b.folding → Halted o hooks b d id

/-- Whether a type can be resolved if its parts can. -/
def Accepted (o : Oracle D) (hooks : List (Hook D)) (d : D) : Prop :=
  hook? hooks d = none → o.refuses d = false

/-- What calls leave behind that were made of a builder where nodes in `waiting` have not all their
parts, and of which those for types in `F` failed. -/
structure Remains (o : Oracle D) (hooks : List (Hook D)) (waiting : List NodeId) (b : Builder D)
    (F : List D) (b' : Builder D) : Prop where
  grows : b.Grows b'
  accepted : ∀ p ∈ b'.known, p ∈ b.known ∨ Accepted o hooks p.1 ∨ p.1 ∈ F
  /-- The nodes of types that failed wait for ever. -/
  stuck : ∃ W, Valid o.lenient hooks b' (W ++ waiting) ∧ ∀ x ∈ W, ∃ d ∈ F, (d, x) ∈ b'.known
  halted : ∀ d ∈ F, ∃ x, (d, x) ∈ b'.known ∧ Halted o hooks b' d x

section

variable {o : Oracle D} {hooks : List (Hook D)} {b b' b'' b₀ : Builder D} {waiting : List NodeId}
  {F G : List D} {d : D} {id x : NodeId} {k : NodeKind}

theorem Halted.not_complete (h : Halted o hooks b d id) : ¬Complete o hooks b d id := by
  intro hc
  cases h with
  | refused hh hr =>
    rw [hc.suits.refuses_eq_false hh] at hr
    cases hr
  | array hk =>
    have := hc.finished
    rw [hk] at this
    obtain ⟨x, -, hx, -⟩ := this
    cases hx
  | record hk hlt =>
    have := hc.finished
    rw [hk] at this
    exact Nat.ne_of_gt hlt this.length_eq
  | folding hf => exact hc.folded hf

theorem Halted.grow {W : List NodeId} (h : Halted o hooks b d id)
    (hv : Valid o.lenient hooks b waiting) (hd : (d, id) ∈ b.known) (hg : b.Grows b')
    (hv' : Valid o.lenient hooks b' (W ++ waiting)) : Halted o hooks b' d id := by
  have hk := hg.kind (hv.lt hd)
  cases h with
  | refused hh hr => exact .refused hh hr
  | array ha => exact .array (hk.trans ha)
  | record hr hlt => exact .record (hk.trans hr) hlt
  | folding hf =>
    obtain ⟨hw, hu⟩ := (hv.folding id).1 hf
    exact .folding ((hv'.folding id).2 ⟨List.mem_append_right _ hw, by rwa [hk]⟩)

namespace Remains

theorem advances (h : Advances o.lenient hooks waiting b b')
    (ha : ∀ p ∈ b'.known, p ∈ b.known ∨ Accepted o hooks p.1) : Remains o hooks waiting b [] b' where
  grows := h.grows
  accepted p hp := (ha p hp).imp_right .inl
  stuck := ⟨[], h.valid, by simp⟩
  halted := by simp

theorem refl (h : Valid o.lenient hooks b waiting) : Remains o hooks waiting b [] b :=
  .advances ⟨h, .refl b, rfl⟩ fun _ => .inl

theorem folds (h : Valid o.lenient hooks b waiting) (hf : b.Folds b') :
    Remains o hooks waiting b [] b' :=
  .advances (hf.advances h) fun _ hp => .inl (hf.known ▸ hp)

theorem valid (h : Remains o hooks waiting b [] b') : Valid o.lenient hooks b' waiting := by
  obtain ⟨W, hv, hW⟩ := h.stuck
  obtain rfl : W = [] := List.eq_nil_iff_forall_not_mem.2 fun x hx => by simpa using hW x hx
  exact hv

theorem append (h : Remains o hooks waiting b F b')
    (h' : ∀ W, Valid o.lenient hooks b' W → Remains o hooks W b' G b'') :
    Remains o hooks waiting b (F ++ G) b'' := by
  obtain ⟨W, hv, hW⟩ := h.stuck
  have hL := h' _ hv
  obtain ⟨W', hv', hW'⟩ := hL.stuck
  refine ⟨h.grows.trans hL.grows, fun p hp => ?_, ⟨W' ++ W, ?_, fun x hx => ?_⟩, fun d hd => ?_⟩
  · rcases hL.accepted p hp with hp | ha | hG
    · exact (h.accepted p hp).imp_right (Or.imp_right (List.mem_append_left _))
    · exact .inr (.inl ha)
    · exact .inr (.inr (List.mem_append_right _ hG))
  · rwa [List.append_assoc]
  · rcases List.mem_append.1 hx with hx | hx
    · obtain ⟨d, hd, hx⟩ := hW' x hx
      exact ⟨d, List.mem_append_right _ hd, hx⟩
    · obtain ⟨d, hd, hx⟩ := hW x hx
      exact ⟨d, List.mem_append_left _ hd, hL.grows.known _ hx⟩
  · rcases List.mem_append.1 hd with hd | hd
    · obtain ⟨x, hx, hh⟩ := h.halted d hd
      exact ⟨x, hL.grows.known _ hx, hh.grow hv hx hL.grows hv'⟩
    · exact hL.halted d hd

theorem start (name : String) (h : Valid o.lenient hooks b waiting) (hd : ∀ id, (d, id) ∉ b.known)
    (hs : Suits o hooks d k) (hr : ∀ r members, k = .record r members → r = b.recordCount) :
    Remains o hooks (b.nodes.size :: waiting) b [] (b.start d name k) := by
  have ha : Accepted o hooks d := hs.refuses_eq_false
  refine ⟨grows_start, fun p hp => ?_, ⟨[], h.start hd ((suits_lenient ha).2 hs) hr, by simp⟩,
    by simp⟩
  rcases mem_known_start.1 hp with ⟨rfl, -⟩ | hp
  · exact .inr (.inl ha)
  · exact .inl hp

theorem begun (name : String) (h : Valid o.lenient hooks b waiting) (hd : ∀ id, (d, id) ∉ b.known)
    (hs : Suits o hooks d k) (hr : ∀ r members, k = .record r members → r = b.recordCount)
    (hp : ∀ W, Valid o.lenient hooks (b.start d name k) W →
      Remains o hooks W (b.start d name k) G b') :
    Remains o hooks (b.nodes.size :: waiting) b G b' ∧ (d, b.nodes.size) ∈ b'.known ∧
      b'.kind b.nodes.size = k := by
  have hstart := Remains.start name h hd hs hr
  have hg := (hp _ hstart.valid).grows
  refine ⟨hstart.append hp, hg.known _ (mem_known_start.2 (.inl ⟨rfl, rfl⟩)), ?_⟩
  exact hg.kind_start

theorem setKind (h : Remains o hooks waiting b₀ [] b) (hid : id ∈ waiting)
    (hid₀ : b₀.nodes.size ≤ id) (hk : k.outline = (b.kind id).outline) :
    Remains o hooks waiting b₀ [] (b.setKind id k) :=
  ⟨h.grows.setKind hid₀, h.accepted, ⟨[], h.valid.setKind hid hk, by simp⟩, by simp⟩

theorem fail (h : Remains o hooks (b.nodes.size :: waiting) b F b')
    (hd : (d, b.nodes.size) ∈ b'.known) (hh : Halted o hooks b' d b.nodes.size) :
    Remains o hooks waiting b (F ++ [d]) b' := by
  obtain ⟨W, hv, hW⟩ := h.stuck
  refine ⟨h.grows, fun p hp => ?_, ⟨W ++ [b.nodes.size], ?_, fun x hx => ?_⟩, fun e he => ?_⟩
  · exact (h.accepted p hp).imp_right (Or.imp_right (List.mem_append_left _))
  · rwa [List.append_assoc, List.singleton_append]
  · rcases List.mem_append.1 hx with hx | hx
    · obtain ⟨e, he, hx⟩ := hW x hx
      exact ⟨e, List.mem_append_left _ he, hx⟩
    · exact ⟨d, by simp, List.mem_singleton.1 hx ▸ hd⟩
  · rcases List.mem_append.1 he with he | he
    · exact h.halted e he
    · exact ⟨_, List.mem_singleton.1 he ▸ hd, List.mem_singleton.1 he ▸ hh⟩

theorem filled (h : Remains o hooks (b.nodes.size :: waiting) b [] b')
    (ha : Advances o.lenient hooks waiting b b'') (hk : b''.known = b'.known) :
    Remains o hooks waiting b [] b'' := by
  refine .advances ha fun p hp => ?_
  rcases h.accepted p (hk ▸ hp) with hp | hp | hp
  · exact .inl hp
  · exact .inr hp
  · cases hp

/-- A call for a new type is logged after those for its parts, if it fails. -/
theorem sealed {α : Type} {r : Result D α} {parts : α → Builder D → Builder D}
    (h : Remains o hooks (b.nodes.size :: waiting) b F r.2)
    (hp : ∀ a b, (parts a b).known = b.known)
    (herror : ∀ e, r.1 = .error e →
      (d, b.nodes.size) ∈ r.2.known ∧ Halted o hooks r.2 d b.nodes.size)
    (hok : ∀ x b', sealed b.nodes.size parts r = (.ok x, b') →
      F = [] ∧ Advances o.lenient hooks waiting b b') :
    Remains o hooks waiting b (F ++ failedCall d (sealed b.nodes.size parts r).1)
      (sealed b.nodes.size parts r).2 := by
  obtain ⟨e | a, b₁⟩ := r
  · obtain ⟨hd, hh⟩ := herror e rfl
    exact h.fail hd hh
  · obtain ⟨rfl, ha⟩ := hok _ _ rfl
    exact h.filled ha (hp a b₁)

/-- The nodes that calls leave are complete but for those of types that failed. -/
theorem complete_iff (h : Remains o hooks [] .empty F b) (hd : (d, id) ∈ b.known) :
    Complete o hooks b d id ↔ d ∉ F := by
  obtain ⟨W, hv, hW⟩ := h.stuck
  rw [List.append_nil] at hv
  constructor
  · intro hc hF
    obtain ⟨x, hx, hh⟩ := h.halted d hF
    exact hh.not_complete (hv.node_unique hd hx ▸ hc)
  · intro hF
    have hw : id ∉ W := fun hw => by
      obtain ⟨e, he, hx⟩ := hW id hw
      exact hF (hv.type_unique hd hx ▸ he)
    -- what the lenient oracle accepts beyond the other one has failed
    have ha : Accepted o hooks d := by
      rcases h.accepted _ hd with hp | ha | hp
      · cases hp
      · exact ha
      · exact absurd hp hF
    exact ⟨(suits_lenient ha).1 (hv.suits hd), finished_lenient.1 (hv.finished hd hw),
      fun hf => hw ((hv.folding id).1 hf).1⟩

end Remains

end

/-! ### Calls for parts -/

/-- Whether calls leave behind what a log of failures tells, and log nothing if they succeed. -/
structure Logs (o : Oracle D) (hooks : List (Hook D)) (resolve : Builder D → D → Result D NodeId)
    (failed : Builder D → D → List D) : Prop where
  remains : ∀ {b waiting} (d), Valid o.lenient hooks b waiting →
    Remains o hooks waiting b (failed b d) (resolve b d).2
  quiet : ∀ {b d id b'}, resolve b d = (.ok id, b') → failed b d = []

section

variable {o : Oracle D} {hooks : List (Hook D)} {b b' b₀ : Builder D}
  {waiting folded folded' : List NodeId} {ds : List D} {d : D} {id union : NodeId} {k : NodeKind}
  {resolve : Builder D → D → Result D NodeId} {failed : Builder D → D → List D}

theorem members_remains (hl : Logs o hooks resolve failed) (union : NodeId) (folded : List NodeId)
    (ds : List D) (h : Valid o.lenient hooks b waiting) :
    Remains o hooks waiting b (failedMembers resolve failed union b folded ds)
      (resolveMembers resolve union b folded ds).2 := by
  induction ds generalizing b folded waiting with
  | nil => exact .refl h
  | cons d ds ih =>
    have hd := hl.remains d h
    rw [failedMembers, resolveMembers]
    rcases hr : resolve b d with ⟨e | x, b₁⟩
    · rw [hr] at hd
      simpa using hd
    · rw [hr] at hd
      refine hd.append fun W hv => ?_
      dsimp only
      rcases hm : foldMember union b₁ folded x with ⟨e | folded₁, b₂⟩
      · exact .folds hv (folds_of_foldMember hm)
      · exact (Remains.folds hv (folds_of_foldMember hm)).append fun W hv => ih _ hv

theorem failedMembers_eq_nil (hl : Logs o hooks resolve failed)
    (hf : resolveMembers resolve union b folded ds = (.ok folded', b')) :
    failedMembers resolve failed union b folded ds = [] := by
  induction ds generalizing b folded with
  | nil => rfl
  | cons d ds ih =>
    rw [resolveMembers] at hf
    rw [failedMembers]
    rcases hr : resolve b d with ⟨e | x, b₁⟩
    · rw [hr] at hf
      cases hf
    · rw [hr] at hf
      rw [hl.quiet hr, List.nil_append]
      dsimp only at hf ⊢
      rcases hm : foldMember union b₁ folded x with ⟨e | folded₁, b₂⟩
      · rfl
      · rw [hm] at hf
        exact ih hf

theorem fields_remains (hl : Logs o hooks resolve failed) {record : RecordId}
    (fs : List (String × D)) {members : List (String × NodeId)}
    (h : Remains o hooks waiting b₀ [] b) (hid : id ∈ waiting) (hid₀ : b₀.nodes.size ≤ id)
    (hk : b.kind id = .record record members) :
    Remains o hooks waiting b₀ (failedFields resolve failed id record b members fs)
        (resolveFields resolve id record b members fs).2 ∧
      (∀ p ∈ b.known, p ∈ (resolveFields resolve id record b members fs).2.known) ∧
      ∀ e, (resolveFields resolve id record b members fs).1 = .error e →
        ∃ done, (resolveFields resolve id record b members fs).2.kind id = .record record done ∧
          done.length < members.length + fs.length := by
  induction fs generalizing b members with
  | nil => exact ⟨h, fun _ hp => hp, fun e he => by cases he⟩
  | cons f fs ih =>
    obtain ⟨name, d⟩ := f
    have hd := h.append fun W hv => hl.remains d hv
    have hg := (hl.remains d h.valid).grows
    have hk' := hg.kind (h.valid.waits id hid)
    rw [hk] at hk'
    rw [failedFields, resolveFields]
    rcases hr : resolve b d with ⟨e | x, b₁⟩
    · rw [hr] at hd hg hk'
      exact ⟨by simpa using hd, hg.known, fun e _ => ⟨members, hk', by simp⟩⟩
    · rw [hr] at hg hk'
      rw [hl.quiet hr, hr] at hd
      have hset : Remains o hooks waiting b₀ []
          (b₁.setKind id (.record record (members ++ [(name, x)]))) :=
        hd.setKind hid hid₀ (by rw [hk']; rfl)
      have hkind : (b₁.setKind id (.record record (members ++ [(name, x)]))).kind id =
          .record record (members ++ [(name, x)]) :=
        kind_setKind_self (hd.valid.waits id hid)
      obtain ⟨hL, hknown, herr⟩ := ih hset hkind
      rw [hl.quiet hr]
      refine ⟨hL, fun p hp => hknown p (hg.known p hp), fun e he => ?_⟩
      obtain ⟨done, hdone, hlt⟩ := herr e he
      exact ⟨done, hdone, by simp at hlt ⊢; omega⟩

theorem failedFields_eq_nil (hl : Logs o hooks resolve failed) {record : RecordId}
    {fs : List (String × D)} {members : List (String × NodeId)}
    (hf : resolveFields resolve id record b members fs = (.ok (), b')) :
    failedFields resolve failed id record b members fs = [] := by
  induction fs generalizing b members with
  | nil => rfl
  | cons f fs ih =>
    obtain ⟨name, d⟩ := f
    rw [resolveFields] at hf
    rw [failedFields]
    rcases hr : resolve b d with ⟨e | x, b₁⟩
    · rw [hr] at hf
      cases hf
    · rw [hr] at hf
      rw [hl.quiet hr, List.nil_append]
      exact ih hf

omit [DecidableEq D] in
theorem failedParts_refused (hr : o.refuses d) : failedParts o resolve failed b d = [] := by
  unfold failedParts
  split <;> first | rfl | (rename_i ht; simp [Oracle.refuses_eq_false ht rfl] at hr)

theorem failedParts_leaf (hh : hook? hooks d = none) (hs : Suits o hooks d k) (hk : k.isLeaf) :
    failedParts o resolve failed b d = [] := by
  unfold failedParts
  cases hs with
  | conversion hc => cases hh.symm.trans hc
  | @simple t k _ ht hs =>
    rw [ht]
    cases t <;> first | rfl | cases hs
  | @literal t value _ ht hl hv =>
    rw [ht]
    cases t <;> first | rfl | cases hl
  | array | union | record => cases hk

theorem Succeeds.failedParts_eq_nil (hl : Logs o hooks resolve failed)
    (hn : b.known.lookup d = none) (hh : hook? hooks d = none)
    (h : Succeeds o hooks resolve b d id b') : failedParts o resolve failed b d = [] := by
  cases h with
  | known hl => cases hn.symm.trans hl
  | leaf _ hs hk => exact failedParts_leaf hh hs hk
  | array _ _ ht he hx =>
    simp only [failedParts, ht, he]
    exact hl.quiet hx
  | record _ _ ht hf =>
    simp only [failedParts, ht]
    exact failedFields_eq_nil hl hf
  | union _ hu hf =>
    simp only [failedParts, hu.2]
    exact failedMembers_eq_nil hl hf

/-! ### Calls -/

theorem refused_remains {name : String} (h : Valid o.lenient hooks b waiting)
    (hd : ∀ id, (d, id) ∉ b.known) (hh : hook? hooks d = none) (hr : o.refuses d) :
    Remains o hooks waiting b [d] (b.start d name .any) := by
  have hs : Suits o.lenient hooks d .any :=
    .simple hh (t := .any) (by simp [Oracle.trait?_lenient, hr]) rfl
  have hknown : (d, b.nodes.size) ∈ (b.start d name .any).known := by simp [start]
  refine ⟨grows_start, fun p hp => ?_,
    ⟨[b.nodes.size], h.start hd hs (by simp), fun x hx => ?_⟩, fun e he => ?_⟩
  · rcases mem_known_start.1 hp with ⟨rfl, -⟩ | hp
    · exact .inr (.inr (List.mem_singleton_self _))
    · exact .inl hp
  · exact ⟨d, List.mem_singleton_self d, List.mem_singleton.1 hx ▸ hknown⟩
  · obtain rfl := List.mem_singleton.1 he
    exact ⟨_, hknown, .refused hh hr⟩

theorem failedWithin_known {depth : Nat} (hl : b.known.lookup d = some id) :
    failedWithin o hooks (depth + 1) b d = [] := by
  rw [failedWithin, hl]

theorem failedWithin_new {depth : Nat} (hl : b.known.lookup d = none) (hh : hook? hooks d = none) :
    failedWithin o hooks (depth + 1) b d =
      failedParts o (resolveWithin o hooks depth) (failedWithin o hooks depth) b d ++
        failedCall d (resolveWithin o hooks (depth + 1) b d).1 := by
  rw [failedWithin, hl, hh]

theorem failedWithin_eq_nil {depth : Nat}
    (hl : Logs o hooks (resolveWithin o hooks depth) (failedWithin o hooks depth))
    (hf : resolveWithin o hooks (depth + 1) b d = (.ok id, b')) :
    failedWithin o hooks (depth + 1) b d = [] := by
  cases hn : b.known.lookup d with
  | some x => exact failedWithin_known hn
  | none =>
    cases hh : hook? hooks d with
    | some hook => rw [failedWithin, hn, hh]
    | none =>
      rw [failedWithin_new hn hh, hf, (resolveWithin_succeeds hf).failedParts_eq_nil hl hn hh]
      rfl

theorem single_remains {depth : Nat}
    (hl : Logs o hooks (resolveWithin o hooks depth) (failedWithin o hooks depth))
    (h : Valid o.lenient hooks b waiting) (hn : b.known.lookup d = none) (hs : Single o hooks d) :
    Remains o hooks waiting b (failedWithin o hooks (depth + 1) b d)
      (resolveWithin o hooks (depth + 1) b d).2 := by
  have hd := lookup_eq_none.1 hn
  obtain ⟨k, hs, hk⟩ | ⟨hh, hr⟩ | ⟨hh, ht, he⟩ := hs.cases
  · have heq : resolveWithin o hooks (depth + 1) b d = _ := resolveWithin_leaf hn hs hk
    obtain ⟨ha, -⟩ := resolveWithin_lenient _ h heq
    rw [failedWithin_eq_nil hl heq, heq]
    exact (Remains.start _ h hd hs (by rintro r members rfl; cases hk)).filled ha rfl
  · obtain ⟨reason, heq⟩ := resolveWithin_refused o hn hh hr
    rw [failedWithin_new hn hh, failedParts_refused hr, heq]
    exact refused_remains h hd hh hr
  · obtain ⟨hL, hmem, hk⟩ := Remains.begun (o.typeName d) h hd (.array hh ht) (by simp)
      fun W hv => .refl hv
    rw [failedWithin_new hn hh, resolveWithin_noElement hn hh ht he]
    simp only [failedParts, ht, he]
    exact hL.fail hmem (.array hk)

theorem resolveWithin_remains {depth : Nat}
    (hl : Logs o hooks (resolveWithin o hooks depth) (failedWithin o hooks depth))
    (h : Valid o.lenient hooks b waiting) (d : D) :
    Remains o hooks waiting b (failedWithin o hooks (depth + 1) b d)
      (resolveWithin o hooks (depth + 1) b d).2 := by
  -- the node of a call that succeeds has all its parts, since none of them failed
  have hok (hn : b.known.lookup d = none) (hh : hook? hooks d = none) (x : NodeId)
      (b' : Builder D) (hf : resolveWithin o hooks (depth + 1) b d = (.ok x, b')) :
      failedParts o (resolveWithin o hooks depth) (failedWithin o hooks depth) b d = [] ∧
        Advances o.lenient hooks waiting b b' :=
    ⟨(resolveWithin_succeeds hf).failedParts_eq_nil hl hn hh, (resolveWithin_lenient _ h hf).1⟩
  cases way o hooks b d with
  | known hn =>
    rw [failedWithin_known hn, resolveWithin_known hn]
    exact .refl h
  | single hn hs => exact single_remains hl h hn hs
  | @array element hn hh ht he =>
    obtain ⟨hL, hmem, hk⟩ := Remains.begun (o.typeName d) h (lookup_eq_none.1 hn) (.array hh ht)
      (by simp) fun W hv => hl.remains element hv
    have hok := hok hn hh
    rw [failedWithin_new hn hh, resolveWithin_array hn hh ht he]
    rw [resolveWithin_array hn hh ht he] at hok
    simp only [failedParts, ht, he] at hok ⊢
    exact hL.sealed (fun _ _ => rfl) (fun _ _ => ⟨hmem, .array hk⟩) hok
  | record hn hh ht =>
    obtain ⟨hL, hknown, herror⟩ := fields_remains hl (o.recordFields d)
      (.start (o.typeName d) h (lookup_eq_none.1 hn) (.record hh ht) (by rintro r members ⟨⟩; rfl))
      List.mem_cons_self (Nat.le_refl b.nodes.size) kind_start_self
    have hok := hok hn hh
    rw [failedWithin_new hn hh, resolveWithin_record hn hh ht]
    rw [resolveWithin_record hn hh ht] at hok
    simp only [failedParts, ht] at hok ⊢
    refine hL.sealed (fun _ _ => rfl) (fun e he => ?_) hok
    obtain ⟨done, hk, hlt⟩ := herror e he
    exact ⟨hknown _ (by simp [start]), .record hk (by simpa using hlt)⟩
  | union hn hu =>
    obtain ⟨hL, hmem, hk⟩ := Remains.begun (o.typeName d) h (lookup_eq_none.1 hn) (.union hu)
      (by simp) fun W hv => members_remains hl b.nodes.size [] (o.unionMembers d) hv
    have hok := hok hn hu.1
    rw [failedWithin_new hn hu.1, resolveWithin_union hn hu]
    rw [resolveWithin_union hn hu] at hok
    simp only [failedParts, hu.2] at hok ⊢
    refine hL.sealed (fun _ _ => rfl) (fun _ _ => ⟨hmem, .folding ?_⟩) hok
    obtain ⟨W, hv, -⟩ := hL.stuck
    exact (hv.folding _).2 ⟨by simp, by rw [hk]; rfl⟩

theorem resolveWithin_logs (depth : Nat) :
    Logs o hooks (resolveWithin o hooks depth) (failedWithin o hooks depth) := by
  induction depth with
  | zero => exact ⟨fun d h => .refl h, fun _ => rfl⟩
  | succ depth ih => exact ⟨fun d h => resolveWithin_remains ih h d, failedWithin_eq_nil ih⟩

theorem mem_failedWithin {depth : Nat} {e : CompileError}
    (h : resolveWithin o hooks (depth + 1) b d = (.error e, b')) :
    d ∈ failedWithin o hooks (depth + 1) b d := by
  cases hl : b.known.lookup d with
  | some x => simp [resolveWithin, hl] at h
  | none =>
    cases hh : hook? hooks d with
    | some hook => simp [resolveWithin_leaf hl (.conversion hh) rfl] at h
    | none =>
      rw [failedWithin_new hl hh, h]
      exact List.mem_append_right _ (List.mem_singleton_self d)

end

/-! ### Sequences of calls -/

section

variable {o : Oracle D} {hooks : List (Hook D)} {b : Builder D} {waiting : List NodeId} {d : D}
  {id : NodeId}

theorem resolve_logs :
    Logs o hooks (resolve o hooks) (failedWithin o hooks (o.descriptors.length + 2)) :=
  resolveWithin_logs _

theorem failures_append (b : Builder D) (ds es : List D) : failures o hooks b (ds ++ es) =
    failures o hooks b ds ++ failures o hooks (resolveEach o hooks b ds) es := by
  induction ds generalizing b with
  | nil => rfl
  | cons d ds ih => rw [List.cons_append, failures, failures, ih, List.append_assoc, resolveEach]

theorem resolveEach_remains (ds : List D) (h : Valid o.lenient hooks b waiting) :
    Remains o hooks waiting b (failures o hooks b ds) (resolveEach o hooks b ds) := by
  induction ds generalizing b waiting with
  | nil => exact .refl h
  | cons d ds ih => exact (resolve_logs.remains d h).append fun W hv => ih hv

theorem resolve_resolveEach (h : Valid o.lenient hooks b waiting) (hd : (d, id) ∈ b.known)
    (ds : List D) : (resolveEach o hooks b ds).resolve o hooks d =
      (.ok id, resolveEach o hooks b ds) := by
  have hL := resolveEach_remains ds h
  obtain ⟨W, hv, -⟩ := hL.stuck
  rw [resolve, resolveWithin, (lookup_eq_some hv).2 (hL.grows.known _ hd)]

end

/-- A type for which a call failed, by itself or as a part of another one, is given a node by every
later call, and that node is not complete. All other nodes that calls give are complete, and later
calls give the same ones. -/
theorem resolve_failed_again (o : Oracle D) (hooks : List (Hook D)) (ds : List D) :
    let b := resolveEach o hooks .empty ds
    (∀ d e b', b.resolve o hooks d = (.error e, b') → d ∈ failures o hooks .empty (ds ++ [d])) ∧
    (∀ d ∈ failures o hooks .empty ds, ∃ id, ∀ more,
      let b' := resolveEach o hooks b more
      b'.resolve o hooks d = (.ok id, b') ∧ ¬Complete o hooks b' d id) ∧
    ∀ d id b', b.resolve o hooks d = (.ok id, b') →
      (Complete o hooks b' d id ↔ d ∉ failures o hooks .empty ds) ∧
      ∀ more, (resolveEach o hooks b' more).resolve o hooks d =
        (.ok id, resolveEach o hooks b' more) := by
  intro b
  have hL : Remains o hooks [] .empty (failures o hooks .empty ds) b :=
    resolveEach_remains ds valid_empty
  obtain ⟨W, hv, -⟩ := hL.stuck
  refine ⟨fun d e b' he => ?_, fun d hd => ?_, fun d id b' hok => ?_⟩
  · rw [failures_append, failures]
    exact List.mem_append_right _ (List.mem_append_left _ (mem_failedWithin he))
  · obtain ⟨id, hid, -⟩ := hL.halted d hd
    refine ⟨id, fun more => ⟨resolve_resolveEach hv hid more, ?_⟩⟩
    have hmore := hL.append fun W hv => resolveEach_remains more hv
    rw [hmore.complete_iff ((resolveEach_remains more hv).grows.known _ hid)]
    exact not_not_intro (List.mem_append_left _ hd)
  · obtain ⟨ha, hid⟩ := resolveWithin_lenient _ hv hok
    have hcall := hL.append fun W hv => resolve_logs.remains d hv
    rw [resolve_logs.quiet hok, List.append_nil, hok] at hcall
    exact ⟨hcall.complete_iff hid, resolve_resolveEach ha.valid hid⟩

/-- A record with a field that is a symbol, for which there is no kind. -/
def tagged : Oracle Nat where
  descriptors := [0, 1, 2]
  is d t := d == 1 && t == .record || d == 2 && t == .string
  unionMembers _ := []
  recordFields d := if d = 1 then [("name", 2), ("tag", 0)] else []
  arrayElement _ := none
  literalValue _ := none
  typeName d := if d = 0 then "symbol" else toString d

/-- The record fails with its second field, and is given later without it. Its first field is
complete. -/
theorem resolve_failed_again_tagged : failures tagged [] .empty [1] = [0, 1] ∧
    (∃ id, ∀ more, let b' := resolveEach tagged [] (resolveEach tagged [] .empty [1]) more
      b'.resolve tagged [] 1 = (.ok id, b') ∧ ¬Complete tagged [] b' 1 id) ∧
    ∃ id b', (resolveEach tagged [] .empty [1]).resolve tagged [] 2 = (.ok id, b') ∧
      Complete tagged [] b' 2 id := by
  have hf : failures tagged [] .empty [1] = [0, 1] := by decide +kernel
  obtain ⟨-, hfailed, hok⟩ := resolve_failed_again tagged [] [1]
  exact ⟨hf, hfailed 1 (by simp [hf]), 1, _, rfl, (hok 2 1 _ rfl).1.2 (by simp [hf])⟩

/-- A symbol fails at first, and then has a node that is not complete. -/
theorem resolve_symbol_twice : ∃ e b,
    Builder.empty.resolve tagged [] 0 = (.error e, b) ∧ b.resolve tagged [] 0 = (.ok 0, b) ∧
      ¬Complete tagged [] b 0 0 := by
  refine ⟨_, _, rfl, rfl, fun hc => ?_⟩
  cases hc.suits.refuses_eq_false rfl

end Conform.Builder
