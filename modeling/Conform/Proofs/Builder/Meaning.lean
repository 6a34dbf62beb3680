import Conform.Proofs.Builder.Graph
import Conform.Proofs.Model.Direct

/-! Without conversions a value that passes the check of a node is a value of the type of the
node, unless nothing is left of the type or of one that its parts are checked against. -/

namespace Conform

variable {D : Type} {o : Oracle D}

/-- The values of a type, by what its oracle says. -/
inductive Oracle.Means (o : Oracle D) : D → Value → Prop
  | simple {d : D} {t : Trait} {k : NodeKind} {v : Value} : o.trait? d = some t →
      t.kind? = some k → (k = .any ∨ k.admits v) → Means o d v
  | literal {d : D} {t : Trait} {l : Literal} {v : Value} : o.trait? d = some t → t.isLiteral →
      o.literalValue d = some l → v.strictEq l → Means o d v
  | array {d e : D} {items : List Value} : o.trait? d = some .array →
      o.arrayElement d = some e → (∀ v ∈ items, Means o e v) → Means o d (.array items)
  | union {d m : D} {v : Value} : o.trait? d = some .union → m ∈ o.unionMembers d →
      Means o m v → Means o d v
  | record {d : D} {v : Value} : o.trait? d = some .record → v.isNull = false →
      v.tag = .object → (∀ f ∈ o.recordFields d, Means o f.2 (v.get f.1)) → Means o d v

variable [DecidableEq D]

theorem Leaf.means {d l : D} {v : Value} (h : Leaf o [] d l) (hv : o.Means l v) :
    o.Means d v := by
  induction h with
  | self => exact hv
  | member hu hm _ ih => exact .union hu.2 hm (ih hv)

/-- Whether something is left of each type in a set, and the elements and fields of what is left
are in it. -/
structure Solid (o : Oracle D) (S : D → Prop) : Prop where
  leaf : ∀ {d}, S d → ∃ l, Leaf o [] d l
  element : ∀ {d l e}, S d → Leaf o [] d l → o.trait? l = some .array →
    o.arrayElement l = some e → S e
  field : ∀ {d l f}, S d → Leaf o [] d l → o.trait? l = some .record → f ∈ o.recordFields l →
    S f.2

namespace Builder

variable {b : Builder D} {d : D} {id : NodeId} {path : String} {v : Value}

/-- The kinds among the parts of a node are those of what is left of its type, but for the node
of both booleans. -/
theorem Valid.part {hooks : List (Hook D)} (h : b.Valid o hooks []) (hd : (d, id) ∈ b.known)
    {k : NodeKind} (hk : k ∈ b.finish.parts id) :
    (∃ l y, Leaf o hooks d l ∧ (l, y) ∈ b.known ∧ b.kind y = k) ∨
      k = .boolean ∧ ∀ value, ∃ l y, Leaf o hooks d l ∧ (l, y) ∈ b.known ∧
        b.booleanLiteral? y = some value := by
  have hu := (h.suits hd).isUnion_iff
  unfold Model.parts at hk
  split at hk
  · rename_i members hm
    have hm : b.kind id = .union members := hm
    obtain ⟨y, hy, rfl⟩ := List.mem_map.1 hk
    obtain ⟨hu, hg⟩ := h.of_union hd List.not_mem_nil hm
    have hleaf : ∀ {x}, LeafNode o hooks b (o.unionMembers d) x →
        ∃ l, Leaf o hooks d l ∧ (l, x) ∈ b.known := by
      rintro x ⟨m, hm, l, hl, hx⟩
      exact ⟨l, .member hu hm hl, hx⟩
    rcases hg.gathers.sound y hy with hy | ⟨hboth, t, f, ht, hf, htrue, hfalse⟩
    · obtain ⟨l, hl, hly⟩ := hleaf hy
      exact Or.inl ⟨l, y, hl, hly, rfl⟩
    · refine Or.inr ⟨h.both y hboth, fun value => ?_⟩
      cases value with
      | true =>
        obtain ⟨l, hl, hlt⟩ := hleaf ht
        exact ⟨l, t, hl, hlt, htrue⟩
      | false =>
        obtain ⟨l, hl, hlf⟩ := hleaf hf
        exact ⟨l, f, hl, hlf, hfalse⟩
  · rename_i hne
    exact Or.inl ⟨d, id, .self ((h.suits hd).not_isUnion hne), hd, (List.mem_singleton.1 hk).symm⟩

theorem Valid.exists_part {hooks : List (Hook D)} (h : b.Valid o hooks [])
    (hd : (d, id) ∈ b.known) {l : D} (hl : Leaf o hooks d l) :
    ∃ y, (l, y) ∈ b.known ∧ (b.kind y ∈ b.finish.parts id ∨
      b.isBooleanPart y ∧ .boolean ∈ b.finish.parts id) := by
  have hu := (h.suits hd).isUnion_iff
  unfold Model.parts
  split
  · rename_i members hm
    have hm : b.kind id = .union members := hm
    obtain ⟨hu, hg⟩ := h.of_union hd List.not_mem_nil hm
    obtain ⟨m, hmem, hml⟩ := (leaf_iff hu).1 hl
    obtain ⟨y, hy⟩ := hg.known m hmem l hml
    refine ⟨y, hy, ?_⟩
    rcases hg.gathers.complete y ⟨m, hmem, l, hml, hy⟩ with hin | ⟨hpart, z, hz, hbool⟩
    · exact Or.inl (List.mem_map.2 ⟨y, hin, rfl⟩)
    · have hbool : b.kind z = .boolean := by simpa [isBoolean] using hbool
      exact Or.inr ⟨hpart, List.mem_map.2 ⟨z, hz, hbool⟩⟩
  · rename_i hne
    obtain rfl := (leaf_self_iff ((h.suits hd).not_isUnion hne)).1 hl
    exact ⟨id, hd, Or.inl (List.mem_singleton.2 rfl)⟩

theorem Valid.exists_array_part {hooks : List (Hook D)} (h : b.Valid o hooks [])
    (hd : (d, id) ∈ b.known) {l : D} (hl : Leaf o hooks d l) (hh : hook? hooks l = none)
    (ht : o.trait? l = some .array) :
    ∃ x e, .array (some x) ∈ b.finish.parts id ∧ o.arrayElement l = some e ∧ (e, x) ∈ b.known := by
  obtain ⟨y, hy, hpart⟩ := h.exists_part hd hl
  obtain ⟨x, e, hk, he, hx⟩ := h.exists_array hy List.not_mem_nil hh ht
  rw [hk] at hpart
  refine ⟨x, e, hpart.resolve_right fun hb => ?_, he, hx⟩
  simp [isBooleanPart, isBoolean, booleanLiteral?, hk] at hb

theorem Valid.exists_record_part {hooks : List (Hook D)} (h : b.Valid o hooks [])
    (hd : (d, id) ∈ b.known) {l : D} (hl : Leaf o hooks d l) (hh : hook? hooks l = none)
    (ht : o.trait? l = some .record) :
    ∃ y r members, (l, y) ∈ b.known ∧ b.kind y = .record r members ∧
      .record r members ∈ b.finish.parts id ∧ FieldsKnown b (o.recordFields l) members := by
  obtain ⟨y, hy, hpart⟩ := h.exists_part hd hl
  obtain ⟨r, members, hk, hmembers⟩ := h.exists_record hy List.not_mem_nil hh ht
  rw [hk] at hpart
  refine ⟨y, r, members, hy, hk, hpart.resolve_right fun hb => ?_, hmembers⟩
  simp [isBooleanPart, isBoolean, booleanLiteral?, hk] at hb

theorem Valid.means_leaf (h : b.Valid o [] []) {l : D} {y : NodeId} (hy : (l, y) ∈ b.known)
    (hadm : (b.kind y).admits v)
    (harray : ∀ x e items, b.kind y = .array (some x) → o.trait? l = some .array →
      o.arrayElement l = some e → (e, x) ∈ b.known → v = .array items →
      ∀ u ∈ items, o.Means e u)
    (hrecord : ∀ record members, b.kind y = .record record members →
      o.trait? l = some .record → FieldsKnown b (o.recordFields l) members →
      ∀ f ∈ o.recordFields l, o.Means f.2 (v.get f.1)) : o.Means l v := by
  have hfin := h.finished hy (by simp)
  have hs := h.suits hy
  generalize hk : b.kind y = k at hadm hfin hs
  cases hs with
  | conversion hh => simp [hook?] at hh
  | simple _ ht hkind => exact .simple ht hkind (Or.inr hadm)
  | literal _ ht hl hv => exact .literal ht hl hv hadm
  | union => simp [NodeKind.admits] at hadm
  | array _ ht =>
    obtain ⟨x, e, rfl, he, hx⟩ := hfin
    cases v with
    | array items => exact .array ht he (harray x e items hk ht he hx rfl)
    | _ => simp [NodeKind.admits, Value.isArray] at hadm
  | record _ ht =>
    have hobj : v.isNull = false ∧ v.tag = .object := by simpa [NodeKind.admits] using hadm
    exact .record ht hobj.1 hobj.2 (hrecord _ _ hk ht hfin)

theorem checkItems_ok {m : Model} {element : NodeId} {path : String} {i : Nat}
    {items : List Value} (h : m.checkItems element path i items = .ok ()) :
    ∀ v ∈ items, ∃ path, m.check element path v = .ok () := by
  induction items generalizing i with
  | nil => simp
  | cons u us ih =>
    rw [Model.checkItems] at h
    obtain ⟨⟨⟩, hu, hus⟩ := bind_eq_ok.1 h
    intro v hv
    rcases List.mem_cons.1 hv with rfl | hv
    · exact ⟨_, hu⟩
    · exact ih hus v hv

theorem checkFields_ok {m : Model} {path : String} {fields : List (String × Value)}
    {members : List (String × NodeId)} (h : m.checkFields path fields members = .ok ()) :
    ∀ member ∈ members, ∃ path,
      m.check member.2 path ((Fields.get? member.1 fields).getD .undefined) = .ok () := by
  induction members with
  | nil => simp
  | cons f fs ih =>
    rw [Model.checkFields] at h
    obtain ⟨⟨⟩, hf, hfs⟩ := bind_eq_ok.1 h
    intro member hmem
    rcases List.mem_cons.1 hmem with rfl | hmem
    · exact ⟨_, hf⟩
    · exact ih hfs member hmem

omit [DecidableEq D] in
theorem kind_of_booleanLiteral? {value : Bool} (h : b.booleanLiteral? id = some value) :
    b.kind id = .literal (.boolean value) := by
  unfold booleanLiteral? at h
  split at h <;> simp_all

/-- A value that passes the check of the node of a type is a value of the type. -/
theorem Valid.check_means (h : b.Valid o [] []) {S : D → Prop} (hS : Solid o S) (hd : S d)
    (hid : (d, id) ∈ b.known) (hc : b.finish.check id path v = .ok ()) : o.Means d v := by
  induction hdepth : v.depth using Nat.strongRecOn generalizing v d id path with
  | _ n ih =>
    subst hdepth
    rw [Model.check.eq_def] at hc
    by_cases he : (b.finish.alternatives id).isEmpty
    · -- all that is left of the type takes every value
      obtain ⟨l, hl⟩ := hS.leaf hd
      obtain ⟨y, hy, hpart⟩ := h.exists_part hid hl
      have hany : ∀ k ∈ b.finish.parts id, k = .any := by
        simpa [Model.alternatives] using he
      have hk : b.kind y = .any := hpart.elim (hany _) fun hb => nomatch hany _ hb.2
      have hs := h.suits hy
      rw [hk] at hs
      cases hs with
      | simple _ ht hkind => exact hl.means (.simple ht hkind (Or.inl rfl))
    · rw [if_neg he] at hc
      cases hf : (b.finish.alternatives id).find? (·.admits v) with
      | none => simp [hf] at hc
      | some k =>
        have hadm : k.admits v = true := by simpa using List.find?_some hf
        have hmem : k ∈ b.finish.parts id :=
          List.mem_of_mem_filter (List.mem_of_find?_eq_some hf)
        rw [hf] at hc
        rcases h.part hid hmem with ⟨l, y, hl, hy, rfl⟩ | ⟨rfl, hboth⟩
        · refine hl.means (h.means_leaf hy hadm ?_ ?_)
          · rintro x e items hk ht hel hx rfl u hu
            rw [hk] at hc
            obtain ⟨path, hu'⟩ := checkItems_ok hc u hu
            exact ih _ (Value.depth_lt_array hu) (hS.element hd hl ht hel) hx hu' rfl
          · intro record members hk ht hfs f hf
            rw [hk] at hc hadm
            have hcomp := Value.isComposite_of_admits hadm (Or.inr ⟨_, _, rfl⟩)
            obtain ⟨member, hmem, hname, hknown⟩ := exists_of_mem_left hfs hf
            have hc : b.finish.checkFields path v.fields members = .ok () := by
              cases v <;> first | exact hc | simp [Value.isComposite] at hcomp
            obtain ⟨path, hcheck⟩ := checkFields_ok hc member hmem
            rw [hname] at hcheck
            rw [Value.get_eq_fields]
            exact ih _ (Value.depth_get_lt hcomp f.1) (hS.field hd hl ht hf) hknown hcheck rfl
        · -- the node of both booleans stands for both literals
          cases v with
          | bool value =>
            obtain ⟨l, y, hl, hy, hlit⟩ := hboth value
            have hk := kind_of_booleanLiteral? hlit
            refine hl.means (h.means_leaf hy ?_ ?_ ?_)
            · rw [hk]
              simp [NodeKind.admits, Value.strictEq]
            · intro x e items hk'
              rw [hk] at hk'
              cases hk'
            · intro record members hk'
              rw [hk] at hk'
              cases hk'
          | _ => simp [NodeKind.admits, Value.tag] at hadm

end Builder

end Conform
