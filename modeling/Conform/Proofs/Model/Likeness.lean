import Conform.Proofs.Model.Visit
import Conform.Proofs.Schema.Same

/-! Nodes of two models that are alike: they have the same tests in the same order, with parts
that are alike, whatever their numbers are. A visit does not tell them apart. -/

namespace Conform

namespace NodeKind

/-- A kind with one zero in place of both. -/
def normal : NodeKind → NodeKind
  | .literal l => .literal l.normal
  | k => k

variable {S : NodeId → NodeId → Prop} {k k' : NodeKind}

/-- Whether kinds are the same but for the numbers of nodes and records. -/
inductive Like (S : NodeId → NodeId → Prop) : NodeKind → NodeKind → Prop
  | leaf {k k' : NodeKind} : k.isLeaf → k.normal = k'.normal → Like S k k'
  | array {x y : NodeId} : S x y → Like S (.array (some x)) (.array (some y))
  | record {r r' : RecordId} {ms ms' : List (String × NodeId)} :
      List.Forall₂ (fun f g => f.1 = g.1 ∧ S f.2 g.2) ms ms' →
      Like S (.record r ms) (.record r' ms')

theorem eq_or_literal (h : k.normal = k'.normal) :
    k = k' ∨ ∃ l l', k = .literal l ∧ k' = .literal l' ∧ l.normal = l'.normal := by
  cases k <;> cases k' <;> simp_all [normal]

theorem Like.not_isUnion (h : Like S k k') : k'.isUnion = false := by
  cases h with
  | leaf hk hn =>
    obtain rfl | ⟨l, l', rfl, rfl, -⟩ := eq_or_literal hn
    · cases k <;> simp_all [isLeaf, isUnion]
    · rfl
  | _ => rfl

theorem Like.isTest (h : Like S k k') : k.isTest = k'.isTest := by
  cases h with
  | leaf _ h =>
    obtain rfl | ⟨l, l', rfl, rfl, -⟩ := eq_or_literal h <;> rfl
  | _ => rfl

theorem Like.label (h : Like S k k') : k.label = k'.label := by
  cases h with
  | leaf _ hn =>
    obtain rfl | ⟨l, l', rfl, rfl, hl⟩ := eq_or_literal hn
    · rfl
    · rw [label, label, ← l.sourceForm_normal, hl, l'.sourceForm_normal]
  | _ => rfl

theorem Like.conversion? (h : Like S k k') : k.conversion? = k'.conversion? := by
  cases h with
  | leaf _ h =>
    obtain rfl | ⟨l, l', rfl, rfl, -⟩ := eq_or_literal h <;> rfl
  | _ => rfl

theorem Like.admits (h : Like S k k') (v : Value) : k.admits v = k'.admits v := by
  cases h with
  | leaf _ hn =>
    obtain rfl | ⟨l, l', rfl, rfl, hl⟩ := eq_or_literal hn
    · rfl
    · exact Value.strictEq_of_same (Literal.same_iff.2 hl)
  | _ => rfl

end NodeKind

theorem find?_rel {α β : Type _} {S : α → β → Prop} {xs : List α} {ys : List β} {p : α → Bool}
    {q : β → Bool} (h : List.Forall₂ S xs ys) (hpq : ∀ ⦃x y⦄, S x y → p x = q y) :
    Option.Rel S (xs.find? p) (ys.find? q) := by
  induction h with
  | nil => exact .none
  | @cons x y _ _ hxy _ ih =>
    rw [List.find?_cons, List.find?_cons, ← hpq hxy]
    cases p x
    · exact ih
    · exact .some hxy

namespace Model

theorem parts_of_not_isUnion {m : Model} {id : NodeId} (h : (m.kind id).isUnion = false) :
    m.parts id = [m.kind id] := by
  unfold parts
  split
  · rename_i hk
    simp [hk, NodeKind.isUnion] at h
  · rfl

/-- Whether related nodes of two models have parts that are alike. -/
def Alike (S : NodeId → NodeId → Prop) (m m' : Model) : Prop :=
  ∀ ⦃x y⦄, S x y → List.Forall₂ (NodeKind.Like S) (m.parts x) (m'.parts y)

namespace Alike

variable {S : NodeId → NodeId → Prop} {m m' : Model} {ts : Transforms} {x y : NodeId}
  {path : String}

theorem tests (h : Alike S m m') (hxy : S x y) :
    List.Forall₂ (NodeKind.Like S) (m.tests x) (m'.tests y) :=
  List.rel_filter (fun _ _ hk => by simp [hk.isTest]) (h hxy)

theorem conversion? (h : Alike S m m') (hxy : S x y) : m.conversion? x = m'.conversion? y := by
  have hp := h hxy
  unfold Model.conversion?
  generalize m.parts x = ks at hp ⊢
  generalize m'.parts y = ks' at hp ⊢
  induction hp with
  | nil => rfl
  | cons hk _ ih => rw [List.findSome?_cons, List.findSome?_cons, hk.conversion?, ih]

theorem leftover (h : Alike S m m') (hxy : S x y) (v : Value) :
    m.leftover ts x path v = m'.leftover ts y path v := by
  have ht := h.tests hxy
  rw [Model.leftover, Model.leftover, h.conversion? hxy]
  generalize m.tests x = ks at ht ⊢
  generalize m'.tests y = ks' at ht ⊢
  have hlabels : ks.map (·.label) = ks'.map (·.label) := by
    induction ht with
    | nil => rfl
    | cons hk _ ih => rw [List.map_cons, List.map_cons, hk.label, ih]
  have hempty : ks.isEmpty = ks'.isEmpty := by cases ht <;> rfl
  rw [hlabels, hempty]

theorem visitItems {items : List Value} {i : Nat}
    (ih : ∀ v ∈ items, ∀ path, m.visit ts x path v = m'.visit ts y path v) :
    m.visitItems ts x path i items = m'.visitItems ts y path i items := by
  induction items generalizing i with
  | nil => rw [Model.visitItems, Model.visitItems]
  | cons v vs ihv =>
    rw [Model.visitItems, Model.visitItems, ih v (by simp),
      ihv fun u hu => ih u (List.mem_cons_of_mem _ hu)]

theorem visitFields {members members' : List (String × NodeId)}
    {fields done : List (String × Value)}
    (hm : List.Forall₂ (fun f g => f.1 = g.1 ∧ S f.2 g.2) members members')
    (ih : ∀ name x y path, S x y →
      m.visit ts x path ((Fields.get? name fields).getD .undefined) =
        m'.visit ts y path ((Fields.get? name fields).getD .undefined)) :
    m.visitFields ts path fields members done = m'.visitFields ts path fields members' done := by
  induction hm generalizing done with
  | nil => rw [Model.visitFields, Model.visitFields]
  | @cons f g _ _ hfg _ ihm =>
    obtain ⟨name, a⟩ := f
    obtain ⟨name', b⟩ := g
    obtain ⟨rfl, hab⟩ : name = name' ∧ S a b := hfg
    simp only [Model.visitFields, ih name a b _ hab, ihm]

/-- Nodes that are alike make the same of every value. -/
theorem visit (h : Alike S m m') (hxy : S x y) (v : Value) :
    m.visit ts x path v = m'.visit ts y path v := by
  induction hd : v.depth using Nat.strongRecOn generalizing v x y path with
  | _ d ih =>
    subst hd
    have hfind := find?_rel (h.tests hxy) fun k k' hk => hk.admits v
    cases hf : (m.tests x).find? (·.admits v) with
    | none =>
      rw [hf] at hfind
      cases hf' : (m'.tests y).find? (·.admits v) with
      | some k' =>
        rw [hf'] at hfind
        cases hfind
      | none => rw [visit_none hf, visit_none hf', h.leftover hxy]
    | some k =>
      rw [hf] at hfind
      cases hf' : (m'.tests y).find? (·.admits v) with
      | none =>
        rw [hf'] at hfind
        cases hfind
      | some k' =>
        rw [hf'] at hfind
        cases hfind with
        | some hk =>
          cases hk with
          | @array a b hab =>
            obtain ⟨_, items, -, rfl⟩ | ⟨_, _, _, hne, -⟩ | ⟨ha, -⟩ := tested_cases hf
            · rw [visit_array hf, visit_array hf',
                visitItems fun u hu path => ih _ (Value.depth_lt_array hu) hab u rfl]
            · cases hne
            · exact absurd rfl (ha a)
          | @record r r' ms ms' hms =>
            obtain ⟨_, _, hne, -⟩ | ⟨_, _, _, -, hc, -⟩ | ⟨-, hr⟩ := tested_cases hf
            · cases hne
            · rw [visit_record hf, visit_record hf', visitFields hms fun name a b path hab =>
                ih _ (Value.depth_get_lt hc name) hab _ rfl]
            · exact absurd rfl (hr r ms)
          | leaf hl hn =>
            have hl' : k'.isLeaf := by
              obtain rfl | ⟨l, l', rfl, rfl, -⟩ := NodeKind.eq_or_literal hn
              · exact hl
              · rfl
            have hleaf : ∀ {k : NodeKind}, k.isLeaf → (∀ e, k ≠ .array (some e)) ∧
                ∀ r members, k ≠ .record r members := by
              intro k hk
              cases k <;> simp_all [NodeKind.isLeaf]
            rw [visit_leaf hf (hleaf hl).1 (hleaf hl).2, visit_leaf hf' (hleaf hl').1 (hleaf hl').2]

end Alike

end Model

end Conform
