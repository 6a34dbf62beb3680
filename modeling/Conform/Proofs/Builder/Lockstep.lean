import Conform.Proofs.Builder.Mirroring
import Conform.Proofs.Model.Normal

/-! Two builders that are asked for related types in the same order. They make the same nodes under
the same numbers, except that a zero may have another sign. -/

namespace Conform

namespace NodeKind

variable {k k' : NodeKind}

theorem eq_or_number (h : k.normal = k'.normal) :
    k = k' ∨ ∃ d d', k = .literal (.number d) ∧ k' = .literal (.number d') := by
  obtain rfl | ⟨l, l', rfl, rfl, hl⟩ := eq_or_literal h
  · exact Or.inl rfl
  · cases l <;> cases l' <;> simp_all [Literal.normal]

theorem isUnion_of_normal (h : k.normal = k'.normal) : k.isUnion = k'.isUnion := by
  obtain rfl | ⟨d, d', rfl, rfl⟩ := eq_or_number h <;> rfl

theorem isLeaf_eq : k.isLeaf = !(k.facet == .array || k.facet == .record || k.isUnion) := by
  cases k with
  | literal l => cases l <;> rfl
  | _ => rfl

end NodeKind

namespace Builder

section

variable {D D' : Type} {R : D → D' → Prop}

/-- Whether two builders have the same nodes for related types, but for the sign of zeros. -/
structure InStep (R : D → D' → Prop) (b : Builder D) (b' : Builder D') : Prop where
  nodes : b.nodes.map Node.normal = b'.nodes.map Node.normal
  known : List.Forall₂ (fun e e' => R e.1 e'.1 ∧ e.2 = e'.2) b.known b'.known
  recordCount : b.recordCount = b'.recordCount
  bothBooleans : b.bothBooleans = b'.bothBooleans
  folding : b.folding = b'.folding

def Agree {α : Type} (R : D → D' → Prop) (r : Result D α) (r' : Result D' α) : Prop :=
  r.1 = r'.1 ∧ InStep R r.2 r'.2

namespace InStep

theorem empty : InStep R (Builder.empty : Builder D) (Builder.empty : Builder D') :=
  ⟨rfl, .nil, rfl, rfl, rfl⟩

variable {b : Builder D} {b' : Builder D'} {x : D} {x' : D'} {id union : NodeId} {k k' : NodeKind}
  {folded : List NodeId} (h : InStep R b b')

include h

theorem size : b.nodes.size = b'.nodes.size := by
  simpa using congrArg Array.size h.nodes

theorem node? (id : NodeId) : (b.node? id).map Node.normal = (b'.node? id).map Node.normal := by
  have := congrArg (fun ns => ns[id]?) h.nodes
  simpa [Builder.node?] using this

theorem kind (id : NodeId) : (b.kind id).normal = (b'.kind id).normal := by
  have := h.node? id
  unfold Builder.kind
  cases hn : b.node? id <;> cases hn' : b'.node? id <;> simp_all [Node.normal]

theorem name (id : NodeId) : b.name id = b'.name id := by
  have := h.node? id
  unfold Builder.name
  cases hn : b.node? id <;> cases hn' : b'.node? id <;> simp_all [Node.normal]

theorem mem (hl : ∀ {x y y'}, R x y → R x y' → y = y') (hr : R x x') (hx : (x, id) ∈ b.known) :
    (x', id) ∈ b'.known := by
  obtain ⟨⟨y', id'⟩, hy', hxy, rfl⟩ := exists_of_mem_left h.known hx
  rwa [hl hr hxy]

theorem symm : InStep (fun y x => R x y) b' b :=
  ⟨h.nodes.symm, h.known.flip.imp fun _ _ he => ⟨he.1, he.2.symm⟩, h.recordCount.symm,
    h.bothBooleans.symm, h.folding.symm⟩

theorem setKind (hk : k.normal = k'.normal) : InStep R (b.setKind id k) (b'.setKind id k') := by
  refine ⟨?_, h.known, h.recordCount, h.bothBooleans, h.folding⟩
  refine Array.ext_getElem? fun i => ?_
  have hi := h.node? i
  simp only [Builder.node?] at hi
  simp only [Builder.setKind, Array.getElem?_map, Array.getElem?_modify]
  split_ifs
  · cases hn : b.nodes[i]? <;> cases hn' : b'.nodes[i]? <;> simp_all [Node.normal]
  · exact hi

theorem start {name name' : String} (hr : R x x') (hname : name = name')
    (hk : k.normal = k'.normal) : InStep R (b.start x name k) (b'.start x' name' k') := by
  subst hname
  refine ⟨?_, .cons ⟨hr, h.size⟩ h.known, ?_, h.bothBooleans, ?_⟩
  · simp only [Builder.start, Array.map_push, h.nodes, Node.normal, hk]
  · have : recordsOf k = recordsOf k' := by
      obtain rfl | ⟨d, d', rfl, rfl⟩ := NodeKind.eq_or_number hk <;> rfl
    simp only [Builder.start, h.recordCount, this]
  · simp only [Builder.start, h.folding, NodeKind.isUnion_of_normal hk, h.size]

theorem close : InStep R (b.close id) (b'.close id) :=
  ⟨h.nodes, h.known, h.recordCount, h.bothBooleans, by simp only [Builder.close, h.folding]⟩

theorem normal : b.finish.normal = b'.finish.normal := by
  rw [Builder.finish, Builder.finish, Model.normal, Model.normal, Model.mk.injEq]
  exact ⟨h.nodes, h.recordCount⟩

/-! ### Folding -/

theorem both : b.both.1 = b'.both.1 ∧ InStep R b.both.2 b'.both.2 := by
  unfold Builder.both
  rw [h.bothBooleans]
  cases b'.bothBooleans with
  | some id => exact ⟨rfl, h⟩
  | none =>
    refine ⟨h.size, ?_, h.known, h.recordCount, ?_, h.folding⟩
    · simp [addNode, Array.map_push, h.nodes]
    · simp [addNode, h.size]

/-- What folding asks of nodes is the same of both builders. -/
theorem asks : b.isBoolean = b'.isBoolean ∧ b.booleanLiteral? = b'.booleanLiteral? ∧
    b.isRecord = b'.isRecord ∧ b.isConversion = b'.isConversion := by
  refine ⟨?_, ?_, ?_, ?_⟩ <;> funext id <;>
    simp only [isBoolean, booleanLiteral?, isRecord, isConversion] <;>
    obtain he | ⟨d, d', hd, hd'⟩ := NodeKind.eq_or_number (h.kind id) <;>
    simp [*]

theorem foldLeaf (member : NodeId) :
    Agree R (Builder.foldLeaf union b folded member) (Builder.foldLeaf union b' folded member) := by
  obtain ⟨hboolean, hliteral, hrecord, hconversion⟩ := h.asks
  unfold Builder.foldLeaf
  by_cases hmem : folded.contains member
  · rw [if_pos hmem, if_pos hmem]
    exact ⟨rfl, h⟩
  rw [if_neg hmem, if_neg hmem]
  obtain he | ⟨d, d', hd, hd'⟩ := NodeKind.eq_or_number (h.kind member)
  · rw [he, hboolean]
    cases b'.kind member with
    | boolean =>
      dsimp only
      split_ifs
      · exact ⟨rfl, h⟩
      · exact ⟨by simp only [foldBoolean, hliteral], h⟩
    | literal l =>
      cases l with
      | boolean value =>
        dsimp only
        split_ifs
        · exact ⟨rfl, h⟩
        · simp only [foldBooleanLiteral, hliteral]
          split
          · exact ⟨rfl, h⟩
          · exact ⟨by rw [h.both.1], h.both.2⟩
      | _ => exact ⟨rfl, h⟩
    | array e => exact ⟨by simp only [foldArray, hrecord], h⟩
    | conversion n =>
      dsimp only
      rw [hconversion, h.name]
      split_ifs <;> exact ⟨rfl, h⟩
    | _ => exact ⟨rfl, h⟩
  · rw [hd, hd']
    exact ⟨rfl, h⟩

theorem foldLeaves (members : List NodeId) :
    Agree R (Builder.foldLeaves union b folded members)
      (Builder.foldLeaves union b' folded members) := by
  induction members generalizing b b' folded with
  | nil => exact ⟨rfl, h⟩
  | cons m ms ih =>
    obtain ⟨hr, hb⟩ : Agree R (Builder.foldLeaf union b folded m)
      (Builder.foldLeaf union b' folded m) := h.foldLeaf m
    simp only [Builder.foldLeaves]
    generalize Builder.foldLeaf union b folded m = r at hr hb
    generalize Builder.foldLeaf union b' folded m = r' at hr hb
    obtain ⟨r, b₁⟩ := r
    obtain ⟨r', b₁'⟩ := r'
    obtain rfl : r = r' := hr
    cases r with
    | error e => exact ⟨rfl, hb⟩
    | ok folded => exact ih hb

theorem foldMember {b₁ : Builder D} {b₁' : Builder D'} {folded₁ folded₁' : List NodeId}
    {member : NodeId} (hf : Builder.foldMember union b folded member = (.ok folded₁, b₁))
    (hf' : Builder.foldMember union b' folded member = (.ok folded₁', b₁')) :
    folded₁ = folded₁' ∧ InStep R b₁ b₁' := by
  have hsame : Agree R (Builder.foldMember union b folded member)
      (Builder.foldMember union b' folded member) := by
    unfold Builder.foldMember
    obtain he | ⟨d, d', hd, hd'⟩ := NodeKind.eq_or_number (h.kind member)
    · rw [he]
      cases b'.kind member with
      | union members =>
        dsimp only
        rw [h.folding, h.name]
        split_ifs
        · exact ⟨rfl, h⟩
        · exact h.foldLeaves members
      | _ => exact h.foldLeaf member
    · rw [hd, hd']
      exact h.foldLeaf member
  rw [hf, hf'] at hsame
  exact ⟨Except.ok.inj hsame.1, hsame.2⟩

end InStep

/-! ### Runs -/

/-- Whether tasks ask for related types, at the same stage. -/
inductive Task.Together (R : D → D' → Prop) : Task D → Task D' → Prop
  | type {d : D} {d' : D'} {id id' : NodeId} : R d d' → Together R (.type d id) (.type d' id')
  | members {union : NodeId} {folded folded₁ folded₁' : List NodeId} {ds : List D}
      {ds' : List D'} : List.Forall₂ R ds ds' →
      Together R (.members union folded ds folded₁) (.members union folded ds' folded₁')
  | fields {id : NodeId} {record : RecordId} {members : List (String × NodeId)}
      {fs : List (String × D)} {fs' : List (String × D')} :
      List.Forall₂ (fun f f' => f.1 = f'.1 ∧ R f.2 f'.2) fs fs' →
      Together R (.fields id record members fs) (.fields id record members fs')
  | types {ds : List D} {ds' : List D'} {ids ids' : List NodeId} :
      List.Forall₂ R ds ds' → Together R (.types ds ids) (.types ds' ids')

/-- The nodes that a task comes to. -/
def Task.outcome : Task D → List NodeId
  | .type _ id => [id]
  | .members _ _ _ folded => folded
  | .fields _ _ _ _ => []
  | .types _ ids => ids

end

end Builder

variable {D D' : Type} [DecidableEq D] [DecidableEq D'] {o : Oracle D} {o' : Oracle D'}
  {hooks : List (Hook D)} {hooks' : List (Hook D')} {R : D → D' → Prop}

namespace Mirrors

variable (h : Mirrors o hooks o' hooks' R) {x : D} {y : D'}

include h

theorem isLeaf (hxy : R x y) {k k' : NodeKind} (hs : Suits o hooks x k)
    (hs' : Suits o' hooks' y k') : k.isLeaf = k'.isLeaf := by
  have hu : k.isUnion = k'.isUnion := by
    rw [Bool.eq_iff_iff, hs.isUnion_iff, hs'.isUnion_iff, h.isUnion hxy]
  rw [NodeKind.isLeaf_eq, NodeKind.isLeaf_eq, hs.facet, hs'.facet, h.facet hxy, hu]

theorem namedFields (hxy : R x y) :
    List.Forall₂ (fun f f' => f.1 = f'.1 ∧ R f.2 f'.2) (o.recordFields x) (o'.recordFields y) := by
  have hn := h.names hxy
  have hf := h.fields hxy
  generalize o.recordFields x = fs at hn hf
  generalize o'.recordFields y = fs' at hn hf
  induction hf with
  | nil => exact .nil
  | cons hr _ ih =>
    obtain ⟨hname, hn⟩ := List.cons.inj hn
    exact .cons ⟨hname, hr⟩ (ih hn)

end Mirrors

namespace Builder

variable {b b₁ : Builder D} {b' b₁' : Builder D'} {waiting waiting' : List NodeId} {task : Task D}
  {task' : Task D'}

/-- Runs that are asked for related types make the same nodes. -/
theorem Runs.inStep (h : Mirrors o hooks o' hooks' R)
    (hname : ∀ {x y}, R x y → o.typeName x = o'.typeName y)
    (hr : Runs o hooks waiting b task b₁) (hr' : Runs o' hooks' waiting' b' task' b₁')
    (hb : InStep R b b') (ht : task.Together R task') :
    InStep R b₁ b₁' ∧ task.outcome = task'.outcome := by
  -- a type is known to both builders or to neither
  have hnew {b : Builder D} {b' : Builder D'} {d : D} {d' : D'} (hb : InStep R b b') (hR : R d d')
      (hn : ∀ x, (d, x) ∉ b.known) (x : NodeId) : (d', x) ∉ b'.known :=
    fun hd => hn x (hb.symm.mem h.right hR hd)
  induction hr generalizing b' b₁' waiting' task' with
  | known hv hd =>
    cases ht with
    | type hR =>
      obtain ⟨rfl, rfl⟩ := hr'.of_known (hb.mem h.left hR hd)
      exact ⟨hb, rfl⟩
  | leaf hv hn hs hk =>
    cases ht with
    | type hR =>
      obtain ⟨k', hs', rfl, rfl⟩ := hr'.of_leaf (hnew hb hR hn) fun k' hs' =>
        (h.isLeaf hR hs hs').symm.trans hk
      exact ⟨hb.start hR (hname hR) (h.suits_leaf hR hs hk hs'), congrArg (fun i => [i]) hb.size⟩
  | @array _ b b₁ d element x hv hn hh ht he _ _ _ ih =>
    cases ‹Task.Together R (.type d _) _› with
    | type hR =>
      obtain ⟨element', x', b₂, he', hrun', rfl, rfl⟩ := hr'.of_array (hnew hb hR hn)
        ((h.hook_none hR).1 hh) ((h.trait hR).symm.trans ht)
      have hel := h.element hR
      rw [he, he'] at hel
      cases hel with
      | some hel =>
        obtain ⟨hb₁, hx⟩ := ih hrun' (hb.start hR (hname hR) rfl) (.type hel)
        obtain rfl := List.head_eq_of_cons_eq hx
        rw [← hb.size]
        exact ⟨hb₁.setKind rfl, rfl⟩
  | @union _ _ b b₁ d hv hn hu _ _ ih =>
    cases ht with
    | type hR =>
      obtain ⟨folded', b₂, hrun', rfl, rfl⟩ := hr'.of_union (hnew hb hR hn) ((h.isUnion hR).1 hu)
      rw [← hb.size] at hrun' ⊢
      obtain ⟨hb₁, hfolded⟩ := ih hrun' (hb.start hR (hname hR) rfl) (.members (h.members hR))
      obtain rfl : _ = _ := hfolded
      exact ⟨(hb₁.setKind rfl).close, rfl⟩
  | @record _ b b₁ d hv hn hh ht _ ih =>
    cases ‹Task.Together R (.type d _) _› with
    | type hR =>
      obtain ⟨hrun', rfl⟩ := hr'.of_record (hnew hb hR hn) ((h.hook_none hR).1 hh)
        ((h.trait hR).symm.trans ht)
      rw [← hb.size, ← hb.recordCount] at hrun'
      obtain ⟨hb₁, -⟩ := ih hrun' (hb.start hR (hname hR) rfl) (.fields (h.namedFields hR))
      exact ⟨hb₁, congrArg (fun i => [i]) hb.size⟩
  | noMembers hv =>
    cases ht with
    | members hds =>
      cases hds
      cases hr'
      exact ⟨hb, rfl⟩
  | member hv _ ha hx hm _ ih ih' =>
    cases ht with
    | members hds =>
      cases hds with
      | cons hR hds =>
        cases hr' with
        | member hv' hrun' _ _ hm' hrest' =>
          obtain ⟨hb₁, hid⟩ := ih hrun' hb (.type hR)
          obtain rfl := List.head_eq_of_cons_eq hid
          obtain ⟨rfl, hb₂⟩ := hb₁.foldMember hm hm'
          obtain ⟨hb', hfolded⟩ := ih' hrest' hb₂ (.members hds)
          exact ⟨hb', hfolded⟩
  | noFields hv =>
    cases ht with
    | fields hfs =>
      cases hfs
      cases hr'
      exact ⟨hb, rfl⟩
  | field hv hid _ ha hx hk _ ih ih' =>
    cases ht with
    | fields hfs =>
      cases hfs with
      | cons hf hfs =>
        cases hr' with
        | field hv' hid' hrun' _ _ hk' hrest' =>
          obtain ⟨hb₁, hx⟩ := ih hrun' hb (.type hf.2)
          obtain rfl := List.head_eq_of_cons_eq hx
          obtain rfl : _ = _ := hf.1
          obtain ⟨hb', -⟩ := ih' hrest' (hb₁.setKind rfl) (.fields hfs)
          exact ⟨hb', rfl⟩
  | noTypes hv =>
    cases ht with
    | types hds =>
      cases hds
      cases hr'
      exact ⟨hb, rfl⟩
  | types hv _ ha hx _ ih ih' =>
    cases ht with
    | types hds =>
      cases hds with
      | cons hR hds =>
        cases hr' with
        | types hv' hrun' _ _ hrest' =>
          obtain ⟨hb₁, hid⟩ := ih hrun' hb (.type hR)
          obtain rfl := List.head_eq_of_cons_eq hid
          obtain ⟨hb₂, hids⟩ := ih' hrest' hb₁ (.types hds)
          exact ⟨hb₂, congrArg (List.cons _) hids⟩

omit [DecidableEq D] [DecidableEq D'] in
theorem roots_eq {requests : List (Request D)} {requests' : List (Request D')}
    {roots roots' : List Model.Root} (hname : ∀ {x y}, R x y → o.typeName x = o'.typeName y)
    (hq : List.Forall₂ (fun q q' => q.name = q'.name ∧ R q.root q'.root) requests requests')
    (h : List.Forall₂ (RootOf o b) requests roots)
    (h' : List.Forall₂ (RootOf o' b') requests' roots')
    (hn : roots.map (·.node) = roots'.map (·.node)) : roots = roots' := by
  induction hq generalizing roots roots' with
  | nil =>
    cases h
    cases h'
    rfl
  | cons hqq _ ih =>
    cases h with
    | @cons _ root _ _ hr hrs =>
      cases h' with
      | @cons _ root' _ _ hr' hrs' =>
        obtain ⟨hnode, hnodes⟩ := List.cons.inj hn
        obtain ⟨name, node, returnType⟩ := root
        obtain ⟨name', node', returnType'⟩ := root'
        obtain ⟨rfl, rfl, -⟩ := hr
        obtain ⟨rfl, rfl, -⟩ := hr'
        rw [ih hrs hrs' hnodes, hqq.1, hname hqq.2, show node = node' from hnode]

end Builder

/-- Related requests with the same names and conversions compile to the same program, but for the
sign of zeros. -/
theorem program_eq_of_mirrors (h : Mirrors o hooks o' hooks' R)
    (hname : ∀ {x y}, R x y → o.typeName x = o'.typeName y) {requests : List (Request D)}
    {requests' : List (Request D')} {p p' : Program}
    (hq : List.Forall₂ (fun q q' => q.name = q'.name ∧ R q.root q'.root) requests requests')
    (hh : List.Forall₂ (fun k k' => k.conversion = k'.conversion ∧ k.body = k'.body ∧
      R k.result k'.result) hooks hooks')
    (hp : compile o requests hooks = .ok p) (hp' : compile o' requests' hooks' = .ok p') :
    p.normal = p'.normal := by
  obtain ⟨-, -, hp⟩ := bind_eq_ok.1 hp
  obtain ⟨-, -, hp'⟩ := bind_eq_ok.1 hp'
  obtain ⟨⟨roots, b⟩, hroots, hp⟩ := bind_eq_ok.1 hp
  obtain ⟨⟨roots', b'⟩, hroots', hp'⟩ := bind_eq_ok.1 hp'
  have hds : List.Forall₂ R (requests.map (·.root)) (requests'.map (·.root)) := by
    rw [List.forall₂_map_left_iff, List.forall₂_map_right_iff]
    exact hq.imp fun _ _ hqq => hqq.2
  obtain ⟨hb, hnodes⟩ := (Builder.resolveRoots_runs Builder.valid_empty hroots).inStep h hname
    (Builder.resolveRoots_runs Builder.valid_empty hroots') .empty (.types hds)
  obtain rfl := Builder.roots_eq hname hq (resolveRoots_advances Builder.valid_empty hroots).2
    (resolveRoots_advances Builder.valid_empty hroots').2 hnodes
  have hroutines : hooks.map (routineOf o) = hooks'.map (routineOf o') :=
    map_eq_of_forall₂ hh fun k _ k' _ hkk => by
      rw [routineOf, routineOf, hkk.1, hkk.2.1, hname hkk.2.2]
  rw [hroutines] at hp
  exact Model.program_eq hb.normal hp hp'

end Conform
