import Conform.Proofs.Builder.Graph
import Conform.Proofs.Builder.Walking

/-! Runs of a builder that come to an end: what each step starts from and what it makes of the
builder, apart from how deep types may nest. What holds of builders is proved along their runs. -/

namespace Conform.Builder

variable {D : Type} [DecidableEq D]

/-- What a builder is asked for, together with what that comes to. -/
inductive Task (D : Type) where
  | type (d : D) (id : NodeId)
  /-- The members of a union that are left, where the others are folded. -/
  | members (union : NodeId) (folded : List NodeId) (rest : List D) (folded' : List NodeId)
  /-- The fields of a record that are left, where the node has the others. -/
  | fields (id : NodeId) (record : RecordId) (members : List (String × NodeId))
      (rest : List (String × D))
  | types (ds : List D) (ids : List NodeId)

/-- Whether a builder comes from another one by a task, while the nodes in `waiting` have not all
their parts. -/
inductive Runs (o : Oracle D) (hooks : List (Hook D)) :
    List NodeId → Builder D → Task D → Builder D → Prop
  | known {waiting : List NodeId} {b : Builder D} {d : D} {id : NodeId} :
      Valid o hooks b waiting → (d, id) ∈ b.known → Runs o hooks waiting b (.type d id) b
  | leaf {waiting : List NodeId} {b : Builder D} {d : D} {k : NodeKind} :
      Valid o hooks b waiting → (∀ id, (d, id) ∉ b.known) → Suits o hooks d k → k.isLeaf →
      Runs o hooks waiting b (.type d b.nodes.size) (b.start d (o.typeName d) k)
  | array {waiting : List NodeId} {b b' : Builder D} {d element : D} {x : NodeId} :
      Valid o hooks b waiting → (∀ id, (d, id) ∉ b.known) → hook? hooks d = none →
      o.trait? d = some .array → o.arrayElement d = some element →
      Runs o hooks (b.nodes.size :: waiting) (b.start d (o.typeName d) (.array none))
        (.type element x) b' →
      Advances o hooks (b.nodes.size :: waiting) (b.start d (o.typeName d) (.array none)) b' →
      (element, x) ∈ b'.known →
      Runs o hooks waiting b (.type d b.nodes.size)
        (b'.setKind b.nodes.size (.array (some x)))
  | union {waiting folded : List NodeId} {b b' : Builder D} {d : D} :
      Valid o hooks b waiting → (∀ id, (d, id) ∉ b.known) → IsUnion o hooks d →
      Runs o hooks (b.nodes.size :: waiting) (b.start d (o.typeName d) (.union []))
        (.members b.nodes.size [] (o.unionMembers d) folded) b' →
      Advances o hooks (b.nodes.size :: waiting) (b.start d (o.typeName d) (.union [])) b' →
      Runs o hooks waiting b (.type d b.nodes.size)
        ((b'.setKind b.nodes.size (.union folded)).close b.nodes.size)
  | record {waiting : List NodeId} {b b' : Builder D} {d : D} :
      Valid o hooks b waiting → (∀ id, (d, id) ∉ b.known) → hook? hooks d = none →
      o.trait? d = some .record →
      Runs o hooks (b.nodes.size :: waiting)
        (b.start d (o.typeName d) (.record b.recordCount []))
        (.fields b.nodes.size b.recordCount [] (o.recordFields d)) b' →
      Runs o hooks waiting b (.type d b.nodes.size) b'
  | noMembers {waiting folded : List NodeId} {b : Builder D} {union : NodeId} :
      Valid o hooks b waiting → Runs o hooks waiting b (.members union folded [] folded) b
  | member {waiting folded folded₁ folded' : List NodeId} {b b₁ b₂ b' : Builder D} {d : D}
      {ds : List D} {union x : NodeId} :
      Valid o hooks b waiting → Runs o hooks waiting b (.type d x) b₁ →
      Advances o hooks waiting b b₁ → (d, x) ∈ b₁.known →
      foldMember union b₁ folded x = (.ok folded₁, b₂) →
      Runs o hooks waiting b₂ (.members union folded₁ ds folded') b' →
      Runs o hooks waiting b (.members union folded (d :: ds) folded') b'
  | noFields {waiting : List NodeId} {b : Builder D} {id : NodeId} {record : RecordId}
      {members : List (String × NodeId)} :
      Valid o hooks b waiting → Runs o hooks waiting b (.fields id record members []) b
  | field {waiting : List NodeId} {b b₁ b' : Builder D} {d : D} {name : String}
      {fs : List (String × D)} {id x : NodeId} {record : RecordId}
      {members : List (String × NodeId)} :
      Valid o hooks b waiting → id ∈ waiting → Runs o hooks waiting b (.type d x) b₁ →
      Advances o hooks waiting b b₁ → (d, x) ∈ b₁.known → b₁.kind id = .record record members →
      Runs o hooks waiting (b₁.setKind id (.record record (members ++ [(name, x)])))
        (.fields id record (members ++ [(name, x)]) fs) b' →
      Runs o hooks waiting b (.fields id record members ((name, d) :: fs)) b'
  | noTypes {waiting : List NodeId} {b : Builder D} :
      Valid o hooks b waiting → Runs o hooks waiting b (.types [] []) b
  | types {waiting : List NodeId} {b b₁ b' : Builder D} {d : D} {ds : List D} {id : NodeId}
      {ids : List NodeId} :
      Valid o hooks b waiting → Runs o hooks waiting b (.type d id) b₁ →
      Advances o hooks waiting b b₁ → (d, id) ∈ b₁.known →
      Runs o hooks waiting b₁ (.types ds ids) b' →
      Runs o hooks waiting b (.types (d :: ds) (id :: ids)) b'

/-- Whether resolving a type, where it succeeds, is a run. -/
def IsRun (o : Oracle D) (hooks : List (Hook D)) (resolve : Builder D → D → Result D NodeId) :
    Prop :=
  ∀ ⦃b b' : Builder D⦄ ⦃waiting : List NodeId⦄ ⦃d : D⦄ ⦃id : NodeId⦄, Valid o hooks b waiting →
    resolve b d = (.ok id, b') → Runs o hooks waiting b (.type d id) b'

section

variable {o : Oracle D} {hooks : List (Hook D)} {b b' : Builder D}
  {waiting folded folded' : List NodeId} {d : D} {id union : NodeId}
  {resolve : Builder D → D → Result D NodeId}

/-! ### Runs for types -/

theorem Runs.of_known (h : Runs o hooks waiting b (.type d id) b') {x : NodeId}
    (hd : (d, x) ∈ b.known) : id = x ∧ b' = b := by
  cases h with
  | known hv hd' => exact ⟨hv.node_unique hd' hd, rfl⟩
  | leaf _ hn | array _ hn | union _ hn | record _ hn => exact absurd hd (hn x)

theorem Runs.of_leaf (h : Runs o hooks waiting b (.type d id) b') (hd : ∀ x, (d, x) ∉ b.known)
    (hleaf : ∀ k, Suits o hooks d k → k.isLeaf) :
    ∃ k, Suits o hooks d k ∧ id = b.nodes.size ∧ b' = b.start d (o.typeName d) k := by
  cases h with
  | known _ hd' => exact absurd hd' (hd id)
  | leaf _ _ hs => exact ⟨_, hs, rfl, rfl⟩
  | array _ _ hh ht => cases hleaf (.array none) (.array hh ht)
  | union _ _ hu => cases hleaf (.union []) (.union hu)
  | record _ _ hh ht => cases hleaf (.record 0 []) (.record hh ht)

theorem Runs.of_array (h : Runs o hooks waiting b (.type d id) b') (hd : ∀ x, (d, x) ∉ b.known)
    (hh : hook? hooks d = none) (ht : o.trait? d = some .array) :
    ∃ element x b₁, o.arrayElement d = some element ∧
      Runs o hooks (b.nodes.size :: waiting) (b.start d (o.typeName d) (.array none))
        (.type element x) b₁ ∧
      id = b.nodes.size ∧ b' = b₁.setKind b.nodes.size (.array (some x)) := by
  cases h with
  | known _ hd' => exact absurd hd' (hd id)
  | leaf _ _ hs hk =>
    obtain ⟨element, rfl⟩ := hs.eq_array hh ht
    cases hk
  | array _ _ _ _ he hrun => exact ⟨_, _, _, he, hrun, rfl, rfl⟩
  | union _ _ hu => cases hu.2.symm.trans ht
  | record _ _ _ hr => cases hr.symm.trans ht

theorem Runs.of_union (h : Runs o hooks waiting b (.type d id) b') (hd : ∀ x, (d, x) ∉ b.known)
    (hu : IsUnion o hooks d) : ∃ folded b₁,
      Runs o hooks (b.nodes.size :: waiting) (b.start d (o.typeName d) (.union []))
        (.members b.nodes.size [] (o.unionMembers d) folded) b₁ ∧
      id = b.nodes.size ∧ b' = (b₁.setKind b.nodes.size (.union folded)).close b.nodes.size := by
  cases h with
  | known _ hd' => exact absurd hd' (hd id)
  | leaf _ _ hs hk =>
    obtain ⟨members, rfl⟩ := hs.eq_union hu
    cases hk
  | array _ _ _ ht => cases ht.symm.trans hu.2
  | union _ _ _ hrun => exact ⟨_, _, hrun, rfl, rfl⟩
  | record _ _ _ ht => cases ht.symm.trans hu.2

theorem Runs.of_record (h : Runs o hooks waiting b (.type d id) b') (hd : ∀ x, (d, x) ∉ b.known)
    (hh : hook? hooks d = none) (ht : o.trait? d = some .record) :
    Runs o hooks (b.nodes.size :: waiting) (b.start d (o.typeName d) (.record b.recordCount []))
      (.fields b.nodes.size b.recordCount [] (o.recordFields d)) b' ∧ id = b.nodes.size := by
  cases h with
  | known _ hd' => exact absurd hd' (hd id)
  | leaf _ _ hs hk =>
    obtain ⟨r, members, rfl⟩ := hs.eq_record hh ht
    cases hk
  | array _ _ _ ha => cases ha.symm.trans ht
  | union _ _ hu => cases hu.2.symm.trans ht
  | record _ _ _ _ hrun => exact ⟨hrun, rfl⟩

/-! ### What resolves is a run -/

theorem resolveMembers_runs (hr : Resolves o hooks resolve) (hs : IsRun o hooks resolve)
    {ds : List D} (h : Valid o hooks b waiting)
    (hf : resolveMembers resolve union b folded ds = (.ok folded', b')) :
    Runs o hooks waiting b (.members union folded ds folded') b' ∧
      Advances o hooks waiting b b' := by
  induction ds generalizing b folded with
  | nil =>
    obtain ⟨rfl, rfl⟩ : folded = folded' ∧ b = b' := by simpa [resolveMembers] using hf
    exact ⟨.noMembers h, h, .refl b, rfl⟩
  | cons d ds ih =>
    simp only [resolveMembers] at hf
    split at hf
    · simp at hf
    rename_i x b₁ hd
    obtain ⟨ha, hx⟩ := hr h hd
    split at hf
    · simp at hf
    rename_i folded₁ b₂ hm
    have hfolds := folds_of_foldMember hm
    obtain ⟨hrest, ha'⟩ := ih (ha.valid.folds hfolds) hf
    exact ⟨.member h (hs h hd) ha hx hm hrest, (ha.trans (hfolds.advances ha.valid)).trans ha'⟩

theorem resolveFields_runs (hr : Resolves o hooks resolve) (hs : IsRun o hooks resolve)
    {record : RecordId} {members : List (String × NodeId)} {fs : List (String × D)}
    (h : Valid o hooks b waiting) (hid : id ∈ waiting) (hk : b.kind id = .record record members)
    (hf : resolveFields resolve id record b members fs = (.ok (), b')) :
    Runs o hooks waiting b (.fields id record members fs) b' := by
  induction fs generalizing b members with
  | nil =>
    obtain rfl : b = b' := by simpa [resolveFields] using hf
    exact .noFields h
  | cons f fs ih =>
    obtain ⟨name, d⟩ := f
    simp only [resolveFields] at hf
    split at hf
    · simp at hf
    rename_i x b₁ hd
    obtain ⟨ha, hx⟩ := hr h hd
    have hk₁ : b₁.kind id = .record record members := by
      rw [ha.grows.kind (h.waits id hid), hk]
    obtain ⟨h₂, hk₂⟩ := ha.field h hid hk (members ++ [(name, x)])
    exact .field h hid (hs h hd) ha hx hk₁ (ih h₂ hk₂ hf)

/-- A call that succeeds is a run if those for the parts are. -/
theorem Succeeds.runs (hr : Resolves o hooks resolve) (hs : IsRun o hooks resolve)
    (h : Valid o hooks b waiting) (hc : Succeeds o hooks resolve b d id b') :
    Runs o hooks waiting b (.type d id) b' := by
  cases hc with
  | known hl => exact .known h ((lookup_eq_some h).1 hl)
  | leaf hl hsuits hk => exact .leaf h (lookup_eq_none.1 hl) hsuits hk
  | array hl hh ht he hx =>
    have hd := lookup_eq_none.1 hl
    have hv : Valid o hooks (b.start d (o.typeName d) (.array none)) (b.nodes.size :: waiting) :=
      h.start hd (.array hh ht) (by rintro r members ⟨⟩)
    obtain ⟨ha, hmem⟩ := hr hv hx
    exact .array h hd hh ht he (hs hv hx) ha hmem
  | record hl hh ht hf =>
    have hd := lookup_eq_none.1 hl
    exact .record h hd hh ht (resolveFields_runs hr hs
      (h.start hd (.record hh ht) (by rintro r members ⟨⟩; rfl)) (by simp) kind_start_self hf)
  | union hl hu hf =>
    have hd := lookup_eq_none.1 hl
    obtain ⟨hruns, ha⟩ := resolveMembers_runs hr hs
      (h.start hd (.union hu) (by rintro r members ⟨⟩)) hf
    exact .union h hd hu hruns ha

theorem resolveWithin_runs (depth : Nat) : IsRun o hooks (resolveWithin o hooks depth) := by
  induction depth with
  | zero =>
    intro b b' waiting d id h hf
    cases hf
  | succ depth ih =>
    exact fun _ _ _ _ _ h hf => (resolveWithin_succeeds hf).runs (resolveWithin_resolves depth) ih h

theorem resolveRoots_runs {requests : List (Request D)} {roots : List Model.Root}
    (h : Valid o hooks b []) (hf : resolveRoots o hooks b requests = .ok (roots, b')) :
    Runs o hooks [] b (.types (requests.map (·.root)) (roots.map (·.node))) b' := by
  induction requests generalizing b roots with
  | nil =>
    obtain ⟨rfl, rfl⟩ : [] = roots ∧ b = b' := by simpa [resolveRoots] using hf
    exact .noTypes h
  | cons r rs ih =>
    simp only [resolveRoots] at hf
    split at hf
    · simp at hf
    · rename_i id b₁ hr
      obtain ⟨ha, hid⟩ := resolveWithin_resolves _ h hr
      obtain ⟨⟨roots', b₂⟩, hrs, hf⟩ := bind_eq_ok.1 hf
      cases hf
      exact .types h (resolveWithin_runs _ h hr) ha hid (ih ha.valid hrs)

end

end Conform.Builder
