import Conform.Proofs.Builder.Steps

/-! One call for a type: how it is made of the calls for the parts of the type. Each way in which a
call may go has an equation, and nothing after this module opens what a call does. -/

namespace Conform

variable {D : Type}

/-- Whether nothing can be made of a type: it has no trait, or is a literal without a value. -/
def Oracle.refuses (o : Oracle D) (d : D) : Bool :=
  match o.trait? d with
  | none => true
  | some t => t.isLiteral && (o.literalValue d).isNone

theorem Oracle.refuses_eq_false {o : Oracle D} {d : D} {t : Trait} (ht : o.trait? d = some t)
    (hl : t.isLiteral = false) : o.refuses d = false := by
  simp [refuses, ht, hl]

variable [DecidableEq D] {o : Oracle D} {hooks : List (Hook D)}

/-- Whether a type is resolved without another one. -/
def Single (o : Oracle D) (hooks : List (Hook D)) (d : D) : Prop :=
  hook? hooks d = none → o.trait? d ≠ some .union ∧ o.trait? d ≠ some .record ∧
    (o.trait? d = some .array → o.arrayElement d = none)

theorem Single.cases {d : D} (h : Single o hooks d) :
    (∃ k, Suits o hooks d k ∧ k.isLeaf) ∨ hook? hooks d = none ∧ o.refuses d ∨
      hook? hooks d = none ∧ o.trait? d = some .array ∧ o.arrayElement d = none := by
  cases hh : hook? hooks d with
  | some hook => exact .inl ⟨_, .conversion hh, rfl⟩
  | none =>
    obtain ⟨hunion, hrecord, harray⟩ := h hh
    cases ht : o.trait? d with
    | none => exact .inr (.inl ⟨rfl, by simp [Oracle.refuses, ht]⟩)
    | some t =>
      cases t with
      | union => exact absurd ht hunion
      | record => exact absurd ht hrecord
      | array => exact .inr (.inr ⟨rfl, rfl, harray ht⟩)
      | booleanLiteral | numberLiteral | bigintLiteral | stringLiteral =>
        cases hv : o.literalValue d with
        | none => exact .inr (.inl ⟨rfl, by simp [Oracle.refuses, ht, hv, Trait.isLiteral]⟩)
        | some value => exact .inl ⟨_, .literal hh ht rfl hv, rfl⟩
      | _ => exact .inl ⟨_, .simple hh ht rfl, rfl⟩

namespace Builder

/-- A builder with the node that a type gets before anything is known of it. -/
def opened (b : Builder D) (d : D) (name : String) : Builder D :=
  { (b.addNode ⟨name, .any⟩).2 with known := (d, b.nodes.size) :: b.known }

/-- The end of a call for a type: a node that was given its parts. -/
def sealed {α : Type} (id : NodeId) (parts : α → Builder D → Builder D) :
    Result D α → Result D NodeId
  | (.error e, b) => (.error e, b)
  | (.ok a, b) => (.ok id, parts a b)

def sealUnion (id : NodeId) (folded : List NodeId) (b : Builder D) : Builder D :=
  (b.setKind id (.union folded)).close id

section

variable {b b' : Builder D} {d : D} {id x : NodeId} {name : String} {k : NodeKind}
  {resolve : Builder D → D → Result D NodeId} {depth : Nat}

/-! ### Nodes of types -/

omit [DecidableEq D] in
theorem setKind_opened : (b.opened d name).setKind b.nodes.size k =
    { b.start d name k with recordCount := b.recordCount, folding := b.folding } := by
  have : (b.nodes.push ⟨name, .any⟩).modify b.nodes.size (fun n => { n with kind := k }) =
      b.nodes.push ⟨name, k⟩ := by
    apply Array.ext
    · simp
    · intro i hi hi'
      have hlt : i < b.nodes.size + 1 := by simpa using hi'
      simp only [Array.getElem_modify, Array.getElem_push]
      split_ifs <;> first | rfl | omega
  simp only [opened, addNode, Builder.setKind, this, start]

theorem isUnion_leaf {k : NodeKind} (hk : k.isLeaf) : k.isUnion = false := by
  cases k <;> first | rfl | cases hk

omit [DecidableEq D] in
theorem setKind_opened_leaf (hk : k.isLeaf) :
    (b.opened d name).setKind b.nodes.size k = b.start d name k := by
  rw [setKind_opened]
  cases k <;> first | rfl | cases hk

omit [DecidableEq D] in
theorem sealed_eq_ok {α : Type} {parts : α → Builder D → Builder D} {r : Result D α} :
    sealed id parts r = (.ok x, b') ↔ ∃ a b, r = (.ok a, b) ∧ x = id ∧ b' = parts a b := by
  obtain ⟨e | a, b⟩ := r <;> simp [sealed, eq_comm]

omit [DecidableEq D] in
theorem sealed_eq_error {α : Type} {parts : α → Builder D → Builder D} {r : Result D α}
    {e : CompileError} : sealed id parts r = (.error e, b') ↔ r = (.error e, b') := by
  obtain ⟨e' | a, b⟩ := r <;> simp [sealed]

/-! ### What calls are made of -/

/-- A new type without a hook is given what its trait asks for. -/
theorem resolveWithin_new (hl : b.known.lookup d = none) (hh : hook? hooks d = none) :
    resolveWithin o hooks (depth + 1) b d =
      match classify o (resolveWithin o hooks depth) (b.opened d (o.typeName d)) b.nodes.size
          (o.typeName d) d with
      | (.error e, b') => (.error e, b')
      | (.ok (), b') => (.ok b.nodes.size, b') := by
  rw [hook?] at hh
  simp only [resolveWithin, hl, hh]
  rfl

omit [DecidableEq D] in
theorem classify_simple {t : Trait} (ht : o.trait? d = some t) (hk : t.kind? = some k) :
    classify o resolve b id name d = (.ok (), b.setKind id k) := by
  unfold classify
  cases t <;> simp only [Trait.kind?, reduceCtorEq, Option.some.injEq] at hk <;> subst hk <;>
    simp only [ht]

omit [DecidableEq D] in
theorem classify_literal {t : Trait} (ht : o.trait? d = some t) (hl : t.isLiteral) :
    classify o resolve b id name d = match o.literalValue d with
      | none => (.error (.noLiteral name), b)
      | some value => (.ok (), b.setKind id (.literal value)) := by
  unfold classify
  cases t <;> simp only [ht] <;> first | rfl | cases hl

omit [DecidableEq D] in
theorem classify_noElement (ht : o.trait? d = some .array) (he : o.arrayElement d = none) :
    classify o resolve (b.opened d name) b.nodes.size name d =
      (.error (.noElement name), b.start d name (.array none)) := by
  unfold classify
  simp only [ht, he, setKind_opened]
  rfl

omit [DecidableEq D] in
theorem classify_array {element : D} (ht : o.trait? d = some .array)
    (he : o.arrayElement d = some element) :
    classify o resolve (b.opened d name) b.nodes.size name d =
      match resolve (b.start d name (.array none)) element with
      | (.error e, b') => (.error e, b')
      | (.ok x, b') => (.ok (), b'.setKind b.nodes.size (.array (some x))) := by
  unfold classify
  simp only [ht, he, setKind_opened]
  rfl

omit [DecidableEq D] in
theorem classify_record (ht : o.trait? d = some .record) :
    classify o resolve (b.opened d name) b.nodes.size name d =
      resolveFields resolve b.nodes.size b.recordCount
        (b.start d name (.record b.recordCount [])) [] (o.recordFields d) := by
  unfold classify
  simp only [ht, setKind_opened]
  rfl

omit [DecidableEq D] in
theorem classify_union (ht : o.trait? d = some .union) :
    classify o resolve (b.opened d name) b.nodes.size name d =
      match resolveMembers resolve b.nodes.size (b.start d name (.union [])) []
          (o.unionMembers d) with
      | (.error e, b') => (.error e, b')
      | (.ok folded, b') =>
        (.ok (), (b'.setKind b.nodes.size (.union folded)).close b.nodes.size) := by
  unfold classify
  simp only [ht, setKind_opened]
  rfl

/-! ### The ways of a call -/

variable (o hooks) in
/-- How a type is resolved. -/
inductive Way (b : Builder D) (d : D) : Prop
  | known {id : NodeId} : b.known.lookup d = some id → Way b d
  | single : b.known.lookup d = none → Single o hooks d → Way b d
  | array {element : D} : b.known.lookup d = none → hook? hooks d = none →
      o.trait? d = some .array → o.arrayElement d = some element → Way b d
  | record : b.known.lookup d = none → hook? hooks d = none → o.trait? d = some .record → Way b d
  | union : b.known.lookup d = none → IsUnion o hooks d → Way b d

variable (o hooks) in
theorem way (b : Builder D) (d : D) : Way o hooks b d := by
  cases hl : b.known.lookup d with
  | some id => exact .known hl
  | none =>
    by_cases hs : Single o hooks d
    · exact .single hl hs
    · simp only [Single, Classical.not_imp, not_and_or, not_not, ne_eq] at hs
      obtain ⟨hh, hu | hr | ha⟩ := hs
      · exact .union hl ⟨hh, hu⟩
      · exact .record hl hh hr
      · obtain ⟨ht, he⟩ := ha
        obtain ⟨element, he⟩ := Option.ne_none_iff_exists'.1 he
        exact .array hl hh ht he

theorem resolveWithin_known {id : NodeId} (hl : b.known.lookup d = some id) :
    resolveWithin o hooks (depth + 1) b d = (.ok id, b) := by
  simp only [resolveWithin, hl]

theorem resolveWithin_leaf (hl : b.known.lookup d = none) (hs : Suits o hooks d k)
    (hk : k.isLeaf) : resolveWithin o hooks (depth + 1) b d =
      (.ok b.nodes.size, b.start d (o.typeName d) k) := by
  rw [← setKind_opened_leaf hk]
  cases hs with
  | conversion hh =>
    rw [hook?] at hh
    simp only [resolveWithin, hl, hh]
    rfl
  | simple hh ht hk' => rw [resolveWithin_new hl hh, classify_simple ht hk']
  | literal hh ht hlit hv => rw [resolveWithin_new hl hh, classify_literal ht hlit, hv]
  | array | union | record => cases hk

theorem resolveWithin_refused (o : Oracle D) (hl : b.known.lookup d = none)
    (hh : hook? hooks d = none) (hr : o.refuses d) : ∃ reason, ∀ depth,
      resolveWithin o hooks (depth + 1) b d =
        (.error (.unsupported (o.typeName d) reason), b.start d (o.typeName d) .any) := by
  simp only [resolveWithin_new hl hh]
  unfold Oracle.refuses at hr
  split at hr
  · rename_i ht
    unfold classify
    simp only [ht]
    exact ⟨_, fun _ => rfl⟩
  · rename_i t ht
    rw [Bool.and_eq_true, Option.isNone_iff_eq_none] at hr
    simp only [classify_literal ht hr.1, hr.2]
    exact ⟨_, fun _ => rfl⟩

theorem resolveWithin_noElement (hl : b.known.lookup d = none) (hh : hook? hooks d = none)
    (ht : o.trait? d = some .array) (he : o.arrayElement d = none) :
    resolveWithin o hooks (depth + 1) b d =
      (.error (.noElement (o.typeName d)), b.start d (o.typeName d) (.array none)) := by
  rw [resolveWithin_new hl hh, classify_noElement ht he]

/-- A type that is resolved without others gets its node at any depth, whatever comes of it. -/
theorem resolveWithin_single (hl : b.known.lookup d = none) (hs : Single o hooks d) :
    ∃ res k, ∀ depth,
      resolveWithin o hooks (depth + 1) b d = (res, b.start d (o.typeName d) k) := by
  obtain ⟨k, hs, hk⟩ | ⟨hh, hr⟩ | ⟨hh, ht, he⟩ := hs.cases
  · exact ⟨_, k, fun _ => resolveWithin_leaf hl hs hk⟩
  · obtain ⟨reason, heq⟩ := resolveWithin_refused o hl hh hr
    exact ⟨_, .any, heq⟩
  · exact ⟨_, .array none, fun _ => resolveWithin_noElement hl hh ht he⟩

theorem resolveWithin_array {element : D} (hl : b.known.lookup d = none)
    (hh : hook? hooks d = none) (ht : o.trait? d = some .array)
    (he : o.arrayElement d = some element) :
    resolveWithin o hooks (depth + 1) b d = sealed b.nodes.size
      (fun x b' => b'.setKind b.nodes.size (.array (some x)))
      (resolveWithin o hooks depth (b.start d (o.typeName d) (.array none)) element) := by
  rw [resolveWithin_new hl hh, classify_array ht he]
  rcases resolveWithin o hooks depth (b.start d (o.typeName d) (.array none)) element with
    ⟨e | x, b'⟩ <;> rfl

theorem resolveWithin_record (hl : b.known.lookup d = none) (hh : hook? hooks d = none)
    (ht : o.trait? d = some .record) :
    resolveWithin o hooks (depth + 1) b d = sealed b.nodes.size (fun _ b' => b')
      (resolveFields (resolveWithin o hooks depth) b.nodes.size b.recordCount
        (b.start d (o.typeName d) (.record b.recordCount [])) [] (o.recordFields d)) := by
  rw [resolveWithin_new hl hh, classify_record ht]
  rcases resolveFields (resolveWithin o hooks depth) b.nodes.size b.recordCount
    (b.start d (o.typeName d) (.record b.recordCount [])) [] (o.recordFields d) with
    ⟨e | x, b'⟩ <;> rfl

theorem resolveWithin_union (hl : b.known.lookup d = none) (hu : IsUnion o hooks d) :
    resolveWithin o hooks (depth + 1) b d = sealed b.nodes.size (sealUnion b.nodes.size)
      (resolveMembers (resolveWithin o hooks depth) b.nodes.size
        (b.start d (o.typeName d) (.union [])) [] (o.unionMembers d)) := by
  rw [resolveWithin_new hl hu.1, classify_union hu.2]
  rcases resolveMembers (resolveWithin o hooks depth) b.nodes.size
    (b.start d (o.typeName d) (.union [])) [] (o.unionMembers d) with ⟨e | x, b'⟩ <;> rfl

variable (o hooks) in
/-- How a call for a type succeeds, where `resolve` is called for the parts of the type. -/
inductive Succeeds (resolve : Builder D → D → Result D NodeId) (b : Builder D) (d : D) :
    NodeId → Builder D → Prop
  | known {id : NodeId} : b.known.lookup d = some id → Succeeds resolve b d id b
  | leaf {k : NodeKind} : b.known.lookup d = none → Suits o hooks d k → k.isLeaf →
      Succeeds resolve b d b.nodes.size (b.start d (o.typeName d) k)
  | array {element : D} {x : NodeId} {b' : Builder D} : b.known.lookup d = none →
      hook? hooks d = none → o.trait? d = some .array → o.arrayElement d = some element →
      resolve (b.start d (o.typeName d) (.array none)) element = (.ok x, b') →
      Succeeds resolve b d b.nodes.size (b'.setKind b.nodes.size (.array (some x)))
  | record {b' : Builder D} : b.known.lookup d = none → hook? hooks d = none →
      o.trait? d = some .record →
      resolveFields resolve b.nodes.size b.recordCount
        (b.start d (o.typeName d) (.record b.recordCount [])) [] (o.recordFields d) =
          (.ok (), b') → Succeeds resolve b d b.nodes.size b'
  | union {folded : List NodeId} {b' : Builder D} : b.known.lookup d = none → IsUnion o hooks d →
      resolveMembers resolve b.nodes.size (b.start d (o.typeName d) (.union [])) []
        (o.unionMembers d) = (.ok folded, b') →
      Succeeds resolve b d b.nodes.size (sealUnion b.nodes.size folded b')

theorem resolveWithin_succeeds (hf : resolveWithin o hooks (depth + 1) b d = (.ok id, b')) :
    Succeeds o hooks (resolveWithin o hooks depth) b d id b' := by
  cases way o hooks b d with
  | known hl =>
    cases (resolveWithin_known hl).symm.trans hf
    exact .known hl
  | single hl hs =>
    obtain ⟨k, hs, hk⟩ | ⟨hh, hr⟩ | ⟨hh, ht, he⟩ := hs.cases
    · cases (resolveWithin_leaf hl hs hk).symm.trans hf
      exact .leaf hl hs hk
    · obtain ⟨reason, heq⟩ := resolveWithin_refused o hl hh hr
      cases (heq depth).symm.trans hf
    · cases (resolveWithin_noElement hl hh ht he).symm.trans hf
  | array hl hh ht he =>
    rw [resolveWithin_array hl hh ht he] at hf
    obtain ⟨x, b₁, hx, rfl, rfl⟩ := sealed_eq_ok.1 hf
    exact .array hl hh ht he hx
  | record hl hh ht =>
    rw [resolveWithin_record hl hh ht] at hf
    obtain ⟨⟨⟩, b₁, hm, rfl, rfl⟩ := sealed_eq_ok.1 hf
    exact .record hl hh ht hm
  | union hl hu =>
    rw [resolveWithin_union hl hu] at hf
    obtain ⟨folded, b₁, hm, rfl, rfl⟩ := sealed_eq_ok.1 hf
    exact .union hl hu hm

end

end Builder

end Conform
