import Mathlib.Data.List.Nodup
import Mathlib.Data.List.Forall2
import Conform.Proofs.Builder.Folding
import Conform.Proofs.Model.Alternatives

/-! What holds of a builder between any two of its steps. Every type that was looked at has a
node of its own, of the kind that its oracle asks for, and the parts of all nodes are there but
for those of types that are still being resolved. -/

namespace Conform

variable {D : Type} [DecidableEq D]

/-- The first hook of a type. -/
def hook? (hooks : List (Hook D)) (d : D) : Option (Hook D) := hooks.find? (·.result == d)

namespace Trait

/-- The kind that a trait asks for by itself. -/
def kind? : Trait → Option NodeKind
  | .boolean => some .boolean
  | .number => some .number
  | .bigint => some .bigint
  | .string => some .string
  | .null => some .null
  | .undefined => some .undefined
  | .bareObject => some .object
  | .any => some .any
  | _ => none

def isLiteral : Trait → Bool
  | .booleanLiteral | .numberLiteral | .bigintLiteral | .stringLiteral => true
  | _ => false

end Trait

section

variable (o : Oracle D) (hooks : List (Hook D))

/-- Whether a type stands for its members wherever it is a member itself. -/
def IsUnion (d : D) : Prop := hook? hooks d = none ∧ o.trait? d = some .union

/-- What is left of a type when unions are taken apart. -/
inductive Leaf : D → D → Prop
  | self {d : D} : ¬ IsUnion o hooks d → Leaf d d
  | member {d m l : D} : IsUnion o hooks d → m ∈ o.unionMembers d → Leaf m l → Leaf d l

/-- Whether a node of a kind can stand for a type, whatever its parts are. -/
inductive Suits (d : D) : NodeKind → Prop
  | conversion {h : Hook D} : hook? hooks d = some h → Suits d (.conversion h.conversion)
  | simple {t : Trait} {k : NodeKind} :
      hook? hooks d = none → o.trait? d = some t → t.kind? = some k → Suits d k
  | literal {t : Trait} {value : Literal} : hook? hooks d = none → o.trait? d = some t →
      t.isLiteral → o.literalValue d = some value → Suits d (.literal value)
  | array {element : Option NodeId} :
      hook? hooks d = none → o.trait? d = some .array → Suits d (.array element)
  | union {members : List NodeId} : IsUnion o hooks d → Suits d (.union members)
  | record {record : RecordId} {members : List (String × NodeId)} :
      hook? hooks d = none → o.trait? d = some .record → Suits d (.record record members)

end

variable {o : Oracle D} {hooks : List (Hook D)}

theorem Suits.of_outline {d : D} {k k' : NodeKind} (h : Suits o hooks d k)
    (hk : k'.outline = k.outline) : Suits o hooks d k' := by
  cases h with
  | @conversion h hh =>
    obtain rfl : k' = .conversion h.conversion := by
      cases k' <;> simp_all [NodeKind.outline]
    exact .conversion hh
  | @simple t k hn ht hs =>
    obtain rfl : k' = k := by
      cases t <;> simp only [Trait.kind?, reduceCtorEq, Option.some.injEq] at hs <;> subst hs <;>
        cases k' <;> simp_all [NodeKind.outline]
    exact .simple hn ht hs
  | @literal t value hn ht hl hv =>
    obtain rfl : k' = .literal value := by cases k' <;> simp_all [NodeKind.outline]
    exact .literal hn ht hl hv
  | array hn ht =>
    obtain ⟨element, rfl⟩ : ∃ element, k' = .array element := by
      cases k' <;> simp_all [NodeKind.outline]
    exact .array hn ht
  | union hu =>
    obtain ⟨members, rfl⟩ : ∃ members, k' = .union members := by
      cases k' <;> simp_all [NodeKind.outline]
    exact .union hu
  | record hn ht =>
    obtain ⟨r, members, rfl⟩ : ∃ r members, k' = .record r members := by
      cases k' <;> simp_all [NodeKind.outline]
    exact .record hn ht

theorem Suits.isUnion_iff {d : D} {k : NodeKind} (h : Suits o hooks d k) :
    k.isUnion ↔ IsUnion o hooks d := by
  cases h with
  | conversion h => simp [NodeKind.isUnion, IsUnion, h]
  | simple hn ht hs =>
    rename_i t
    have : k.isUnion = false ∧ t ≠ .union := by
      cases t <;> simp only [Trait.kind?, reduceCtorEq, Option.some.injEq] at hs <;> subst hs <;>
        exact ⟨rfl, by simp⟩
    simp [this, IsUnion, ht]
  | literal hn ht hl hv =>
    rename_i t v
    have : t ≠ .union := by rintro rfl; simp [Trait.isLiteral] at hl
    simp [NodeKind.isUnion, IsUnion, ht, this]
  | array hn ht => simp [NodeKind.isUnion, IsUnion, ht]
  | union hu => simpa [NodeKind.isUnion] using hu
  | record hn ht => simp [NodeKind.isUnion, IsUnion, ht]

theorem Suits.not_isUnion {d : D} {k : NodeKind} (h : Suits o hooks d k)
    (hk : ∀ members, k ≠ .union members) : ¬ IsUnion o hooks d := by
  rw [← h.isUnion_iff]
  cases k with
  | union members => exact absurd rfl (hk members)
  | _ => simp [NodeKind.isUnion]

theorem Suits.eq_array {d : D} {k : NodeKind} (h : Suits o hooks d k) (hh : hook? hooks d = none)
    (ht : o.trait? d = some .array) : ∃ element, k = .array element := by
  cases h with
  | array => exact ⟨_, rfl⟩
  | conversion hk => simp [hh] at hk
  | simple _ ht' hk =>
    obtain rfl := Option.some.inj (ht.symm.trans ht')
    cases hk
  | literal _ ht' hl =>
    obtain rfl := Option.some.inj (ht.symm.trans ht')
    cases hl
  | union hu => simp [hu.2] at ht
  | record _ ht' => simp [ht'] at ht

theorem Suits.of_array {d : D} {element : Option NodeId} (h : Suits o hooks d (.array element)) :
    hook? hooks d = none ∧ o.trait? d = some .array := by
  cases h with
  | array hh ht => exact ⟨hh, ht⟩
  | @simple t _ _ _ hk => cases t <;> cases hk

theorem Suits.of_record {d : D} {r : RecordId} {members : List (String × NodeId)}
    (h : Suits o hooks d (.record r members)) :
    hook? hooks d = none ∧ o.trait? d = some .record := by
  cases h with
  | record hh ht => exact ⟨hh, ht⟩
  | @simple t _ _ _ hk => cases t <;> cases hk

theorem Suits.of_conversion {d : D} {n : ConversionId} (h : Suits o hooks d (.conversion n)) :
    ∃ k, hook? hooks d = some k ∧ k.conversion = n := by
  cases h with
  | @conversion k hh => exact ⟨k, hh, rfl⟩
  | @simple t _ _ _ hk => cases t <;> cases hk

theorem Suits.eq_record {d : D} {k : NodeKind} (h : Suits o hooks d k) (hh : hook? hooks d = none)
    (ht : o.trait? d = some .record) : ∃ record members, k = .record record members := by
  cases h with
  | record => exact ⟨_, _, rfl⟩
  | conversion hk => simp [hh] at hk
  | simple _ ht' hk =>
    obtain rfl := Option.some.inj (ht.symm.trans ht')
    cases hk
  | literal _ ht' hl =>
    obtain rfl := Option.some.inj (ht.symm.trans ht')
    cases hl
  | union hu => simp [hu.2] at ht
  | array _ ht' => simp [ht'] at ht

theorem Suits.eq_union {d : D} {k : NodeKind} (h : Suits o hooks d k) (hu : IsUnion o hooks d) :
    ∃ members, k = .union members := by
  have := h.isUnion_iff.2 hu
  cases k with
  | union members => exact ⟨members, rfl⟩
  | _ => simp [NodeKind.isUnion] at this

theorem Suits.eq_simple {d : D} {k k₀ : NodeKind} {t : Trait} (h : Suits o hooks d k)
    (hh : hook? hooks d = none) (ht : o.trait? d = some t) (hk : t.kind? = some k₀) : k = k₀ := by
  cases h with
  | simple _ ht' hk' =>
    obtain rfl := Option.some.inj (ht.symm.trans ht')
    exact Option.some.inj (hk'.symm.trans hk)
  | literal _ ht' hl =>
    obtain rfl := Option.some.inj (ht.symm.trans ht')
    cases t <;> simp [Trait.isLiteral, Trait.kind?] at hl hk
  | conversion hc => simp [hh] at hc
  | array _ ht' | record _ ht' =>
    obtain rfl := Option.some.inj (ht.symm.trans ht')
    cases hk
  | union hu =>
    obtain rfl := Option.some.inj (ht.symm.trans hu.2)
    cases hk

theorem Suits.eq_literal {d : D} {k : NodeKind} {t : Trait} (h : Suits o hooks d k)
    (hh : hook? hooks d = none) (ht : o.trait? d = some t) (hl : t.isLiteral) :
    ∃ value, k = .literal value ∧ o.literalValue d = some value := by
  cases h with
  | literal _ _ _ hv => exact ⟨_, rfl, hv⟩
  | simple _ ht' hk =>
    obtain rfl := Option.some.inj (ht.symm.trans ht')
    cases t <;> simp [Trait.isLiteral, Trait.kind?] at hl hk
  | conversion hc => simp [hh] at hc
  | array _ ht' | record _ ht' =>
    obtain rfl := Option.some.inj (ht.symm.trans ht')
    cases hl
  | union hu =>
    obtain rfl := Option.some.inj (ht.symm.trans hu.2)
    cases hl

theorem Suits.eq_conversion {d : D} {k : NodeKind} (h : Suits o hooks d k)
    (hh : (hook? hooks d).isSome) : ∃ n, k = .conversion n := by
  cases h with
  | conversion => exact ⟨_, rfl⟩
  | union hu => simp [hu.1] at hh
  | simple hn | literal hn | array hn | record hn => simp [hn] at hh

theorem Leaf.not_union {d l : D} (h : Leaf o hooks d l) : ¬ IsUnion o hooks l := by
  induction h with
  | self h => exact h
  | member _ _ _ ih => exact ih

theorem leaf_iff {d l : D} (h : IsUnion o hooks d) :
    Leaf o hooks d l ↔ ∃ m ∈ o.unionMembers d, Leaf o hooks m l := by
  constructor
  · intro hl
    cases hl with
    | self hn => exact absurd h hn
    | member _ hm hl => exact ⟨_, hm, hl⟩
  · rintro ⟨m, hm, hl⟩
    exact .member h hm hl

theorem leaf_self_iff {d l : D} (h : ¬ IsUnion o hooks d) : Leaf o hooks d l ↔ l = d := by
  constructor
  · intro hl
    cases hl with
    | self => rfl
    | member hu => exact absurd hu h
  · rintro rfl
    exact .self h

namespace Builder

/-- Whether a node is that of something that is left of one of some types. -/
def LeafNode (o : Oracle D) (hooks : List (Hook D)) (b : Builder D) (ms : List D) (id : NodeId) :
    Prop :=
  ∃ m ∈ ms, ∃ l, Leaf o hooks m l ∧ (l, id) ∈ b.known

/-- Whether nodes are what is left of some types. -/
structure Gathered (o : Oracle D) (hooks : List (Hook D)) (b : Builder D) (ms : List D)
    (folded : List NodeId) : Prop where
  known : ∀ m ∈ ms, ∀ l, Leaf o hooks m l → ∃ x, (l, x) ∈ b.known
  gathers : b.Gathers (LeafNode o hooks b ms) folded

/-- Whether the parts of a node are those of a type. -/
def Finished (o : Oracle D) (hooks : List (Hook D)) (b : Builder D) (d : D) : NodeKind → Prop
  | .array element => ∃ x y, element = some x ∧ o.arrayElement d = some y ∧ (y, x) ∈ b.known
  | .record _ members => List.Forall₂ (fun f m => m.1 = f.1 ∧ (f.2, m.2) ∈ b.known)
      (o.recordFields d) members
  | .union members => Gathered o hooks b (o.unionMembers d) members
  | _ => True

/-- What holds of a builder while the nodes in `waiting` have not all their parts. -/
structure Valid (o : Oracle D) (hooks : List (Hook D)) (b : Builder D) (waiting : List NodeId) :
    Prop where
  lt : ∀ {d id}, (d, id) ∈ b.known → id < b.nodes.size
  types : (b.known.map (·.1)).Nodup
  ids : (b.known.map (·.2)).Nodup
  nodes : ∀ id < b.nodes.size, (∃ d, (d, id) ∈ b.known) ∨ b.bothBooleans = some id
  both : b.BothBoolean
  suits : ∀ {d id}, (d, id) ∈ b.known → Suits o hooks d (b.kind id)
  finished : ∀ {d id}, (d, id) ∈ b.known → id ∉ waiting → Finished o hooks b d (b.kind id)
  waits : ∀ id ∈ waiting, id < b.nodes.size
  folding : ∀ id, id ∈ b.folding ↔ id ∈ waiting ∧ (b.kind id).isUnion
  counted : ∀ {id record members}, b.kind id = .record record members → record < b.recordCount
  records : ∀ {i j record members members'}, b.kind i = .record record members →
    b.kind j = .record record members' → i = j

theorem valid_empty : Valid o hooks (empty : Builder D) [] := by
  refine ⟨?_, ?_, ?_, ?_, ?_, ?_, ?_, ?_, ?_, ?_, ?_⟩ <;> simp [empty, BothBoolean, kind, node?]

section

variable {b b' : Builder D} {waiting : List NodeId} {d : D} {id : NodeId}

theorem Valid.node_unique (h : Valid o hooks b waiting) {x y : NodeId} (hx : (d, x) ∈ b.known)
    (hy : (d, y) ∈ b.known) : x = y :=
  congrArg Prod.snd (List.inj_on_of_nodup_map h.types hx hy rfl)

theorem Valid.type_unique (h : Valid o hooks b waiting) {d' : D} (hd : (d, id) ∈ b.known)
    (hd' : (d', id) ∈ b.known) : d = d' :=
  congrArg Prod.fst (List.inj_on_of_nodup_map h.ids hd hd' rfl)

theorem lookup_eq_some (h : Valid o hooks b waiting) :
    b.known.lookup d = some id ↔ (d, id) ∈ b.known := by
  have := h.types
  generalize b.known = known at this ⊢
  induction known with
  | nil => simp
  | cons e es ih =>
    obtain ⟨d', x⟩ := e
    rw [List.map_cons, List.nodup_cons] at this
    rw [List.lookup_cons, List.mem_cons]
    cases hd : d == d' with
    | true =>
      obtain rfl : d = d' := by simpa using hd
      constructor
      · rintro ⟨⟩
        exact Or.inl rfl
      · rintro (⟨⟨⟩⟩ | h)
        · rfl
        · exact absurd (List.mem_map_of_mem h) this.1
    | false =>
      have hne : d ≠ d' := by simpa using hd
      simp only [ih this.2, Prod.mk.injEq, hne, false_and, false_or]

theorem lookup_eq_none : b.known.lookup d = none ↔ ∀ id, (d, id) ∉ b.known := by
  rw [List.lookup_eq_none_iff]
  constructor
  · intro h id hid
    simpa using h _ hid
  · rintro h ⟨d', id⟩ hmem
    rw [bne_iff_ne]
    rintro rfl
    exact h id hmem

theorem Gathered.later (hb : Valid o hooks b waiting) (types : (b'.known.map (·.1)).Nodup)
    {ms : List D} {folded : List NodeId} (h : Gathered o hooks b ms folded) (hl : b.Later b') :
    Gathered o hooks b' ms folded := by
  refine ⟨fun m hm l hml => ?_, ?_⟩
  · obtain ⟨x, hx⟩ := h.known m hm l hml
    exact ⟨x, hl.known _ hx⟩
  · have hlt : ∀ x, LeafNode o hooks b ms x → x < b.nodes.size := by
      rintro x ⟨m, -, l, -, hx⟩
      exact hb.lt hx
    have hmono : b'.Gathers (LeafNode o hooks b ms) folded := by
      refine h.gathers.mono (fun x hx => traits_of_outline (hl.outline x (hlt x hx))) ?_
      intro y hy
      have hk := hb.both y hy
      refine ⟨hl.both y hy, ?_⟩
      have := hl.outline y (lt_size_of_kind (by rw [hk]; simp))
      rw [hk] at this ⊢
      cases hk' : b'.kind y <;> simp_all [NodeKind.outline]
    refine hmono.congr fun x => ⟨?_, ?_⟩
    · rintro ⟨m, hm, l, hml, hx⟩
      exact ⟨m, hm, l, hml, hl.known _ hx⟩
    · rintro ⟨m, hm, l, hml, hx⟩
      obtain ⟨x', hx'⟩ := h.known m hm l hml
      have : x = x' := congrArg Prod.snd (List.inj_on_of_nodup_map types hx (hl.known _ hx') rfl)
      rw [this]
      exact ⟨m, hm, l, hml, hx'⟩

/-! ### Parts of nodes that wait no longer -/

theorem Valid.of_array (h : Valid o hooks b waiting) (hd : (d, id) ∈ b.known) (hw : id ∉ waiting)
    {element : Option NodeId} (hk : b.kind id = .array element) :
    hook? hooks d = none ∧ o.trait? d = some .array ∧
      ∃ x e, element = some x ∧ o.arrayElement d = some e ∧ (e, x) ∈ b.known := by
  have hs := h.suits hd
  have hf := h.finished hd hw
  rw [hk] at hs hf
  exact ⟨hs.of_array.1, hs.of_array.2, hf⟩

theorem Valid.of_record (h : Valid o hooks b waiting) (hd : (d, id) ∈ b.known) (hw : id ∉ waiting)
    {r : RecordId} {members : List (String × NodeId)} (hk : b.kind id = .record r members) :
    hook? hooks d = none ∧ o.trait? d = some .record ∧
      List.Forall₂ (fun f m => m.1 = f.1 ∧ (f.2, m.2) ∈ b.known) (o.recordFields d) members := by
  have hs := h.suits hd
  have hf := h.finished hd hw
  rw [hk] at hs hf
  exact ⟨hs.of_record.1, hs.of_record.2, hf⟩

theorem Valid.of_union (h : Valid o hooks b waiting) (hd : (d, id) ∈ b.known) (hw : id ∉ waiting)
    {members : List NodeId} (hk : b.kind id = .union members) :
    IsUnion o hooks d ∧ Gathered o hooks b (o.unionMembers d) members := by
  have hs := h.suits hd
  have hf := h.finished hd hw
  rw [hk] at hs hf
  exact ⟨hs.isUnion_iff.1 rfl, hf⟩

theorem Valid.exists_array (h : Valid o hooks b waiting) (hd : (d, id) ∈ b.known)
    (hw : id ∉ waiting) (hh : hook? hooks d = none) (ht : o.trait? d = some .array) :
    ∃ x e, b.kind id = .array (some x) ∧ o.arrayElement d = some e ∧ (e, x) ∈ b.known := by
  obtain ⟨element, hk⟩ := (h.suits hd).eq_array hh ht
  obtain ⟨-, -, x, e, rfl, he, hx⟩ := h.of_array hd hw hk
  exact ⟨x, e, hk, he, hx⟩

theorem Valid.exists_record (h : Valid o hooks b waiting) (hd : (d, id) ∈ b.known)
    (hw : id ∉ waiting) (hh : hook? hooks d = none) (ht : o.trait? d = some .record) :
    ∃ r members, b.kind id = .record r members ∧
      List.Forall₂ (fun f m => m.1 = f.1 ∧ (f.2, m.2) ∈ b.known) (o.recordFields d) members := by
  obtain ⟨r, members, hk⟩ := (h.suits hd).eq_record hh ht
  exact ⟨r, members, hk, (h.of_record hd hw hk).2.2⟩

theorem Valid.exists_union (h : Valid o hooks b waiting) (hd : (d, id) ∈ b.known)
    (hw : id ∉ waiting) (hu : IsUnion o hooks d) :
    ∃ members, b.kind id = .union members ∧ Gathered o hooks b (o.unionMembers d) members := by
  obtain ⟨members, hk⟩ := (h.suits hd).eq_union hu
  exact ⟨members, hk, (h.of_union hd hw hk).2⟩

/-- A node with all its parts keeps them. -/
theorem Finished.later {k : NodeKind} (hb : Valid o hooks b waiting)
    (types : (b'.known.map (·.1)).Nodup) (h : Finished o hooks b d k) (hl : b.Later b') :
    Finished o hooks b' d k := by
  cases k with
  | array element =>
    obtain ⟨x, y, hx, hy, hmem⟩ := h
    exact ⟨x, y, hx, hy, hl.known _ hmem⟩
  | record record members =>
    exact List.Forall₂.imp (fun f m hm => ⟨hm.1, hl.known _ hm.2⟩) h
  | union members => exact Gathered.later hb types h hl
  | _ => trivial

end

end Builder

end Conform
