import Conform.Proofs.Builder.Mirroring
import Conform.Proofs.Schema.Bodies
import Conform.Proofs.Schema.Matching

/-! Two tables with keys. Entries of one key are the same types under the same names, whatever
their numbers are. -/

namespace Conform

mutual

theorem TypeExpr.key_congr {target target' : String → Option String} {owner : Owner} {before : Nat}
    {e : TypeExpr} (h : ∀ n ∈ e.names, target' n = target n) :
    e.key target' owner before = e.key target owner before := by
  cases e with
  | name n => simp only [TypeExpr.key, h n (by simp [TypeExpr.names])]
  | literal l => simp only [TypeExpr.key]
  | bigint text => simp only [TypeExpr.key]
  | array e => simp only [TypeExpr.key, TypeExpr.key_congr (e := e) h]
  | union es =>
    have hes : ∀ n ∈ allNames es, target' n = target n := h
    simp only [TypeExpr.key, allKeys_congr hes]
  | record fs =>
    have hfs : ∀ n ∈ fieldsNames fs, target' n = target n := h
    simp only [TypeExpr.key, fieldsKeys_congr hfs]

theorem allKeys_congr {target target' : String → Option String} {owner : Owner} {before : Nat}
    {es : List TypeExpr} (h : ∀ n ∈ allNames es, target' n = target n) :
    allKeys target' owner before es = allKeys target owner before es := by
  cases es with
  | nil => rfl
  | cons e es =>
    rw [allKeys, allKeys, TypeExpr.key_congr fun n hn => h n (List.mem_append_left _ hn),
      allKeys_congr fun n hn => h n (List.mem_append_right _ hn)]

theorem fieldsKeys_congr {target target' : String → Option String} {owner : Owner} {before : Nat}
    {fs : List (String × TypeExpr)} (h : ∀ n ∈ fieldsNames fs, target' n = target n) :
    fieldsKeys target' owner before fs = fieldsKeys target owner before fs := by
  cases fs with
  | nil => rfl
  | cons f fs =>
    rw [fieldsKeys, fieldsKeys, TypeExpr.key_congr fun n hn => h n (List.mem_append_left _ hn),
      fieldsKeys_congr fun n hn => h n (List.mem_append_right _ hn)]

end

theorem TypeExpr.bodyKey_congr {target target' : String → Option String} {owner : Owner}
    {e : TypeExpr} (h : ∀ n ∈ e.names, target' n = target n) :
    e.bodyKey target' owner = e.bodyKey target owner := by
  unfold TypeExpr.bodyKey
  rw [TypeExpr.key_congr h]

/-- Whether shapes are the same but for the numbers of entries. -/
inductive Shape.Like (R : TypeId → TypeId → Prop) : Shape → Shape → Prop
  | keyword {k : Keyword} : Like R (.keyword k) (.keyword k)
  | literal {l l' : Literal} : l.normal = l'.normal → Like R (.literal l) (.literal l')
  | array {d d' : TypeId} : R d d' → Like R (.array d) (.array d')
  | union {ds ds' : List TypeId} : List.Forall₂ R ds ds' → Like R (.union ds) (.union ds')
  | record {fs fs' : List (String × TypeId)} :
      List.Forall₂ (fun f f' => f.1 = f'.1 ∧ R f.2 f'.2) fs fs' → Like R (.record fs) (.record fs')

namespace Shape.Like

variable {R : TypeId → TypeId → Prop} {s s' : Shape}

theorem trait? (h : Like R s s') : s.trait? = s'.trait? := by
  cases h with
  | literal hl => rw [← trait?_normal, normal, hl, ← normal, trait?_normal]
  | _ => rfl

theorem isUnion (h : Like R s s') : s.isUnion = s'.isUnion := by
  cases h <;> rfl

end Shape.Like

theorem forall₂_of_map {α β γ : Type} {f : α → γ} {g : β → γ} {as : List α} {bs : List β}
    (h : as.map f = bs.map g) : List.Forall₂ (fun a b => f a = g b) as bs := by
  have h' : List.Forall₂ Eq (as.map f) (bs.map g) := by rw [List.forall₂_eq_eq_eq, h]
  rwa [List.forall₂_map_left_iff, List.forall₂_map_right_iff] at h'

namespace Table

/-- Whether entries of two tables have one key. -/
def SameKey (t : Table) (K : TypeId → TypeKey) (t' : Table) (K' : TypeId → TypeKey)
    (x y : TypeId) : Prop :=
  x < t.entries.size ∧ y < t'.entries.size ∧ K x = K' y

variable {target target' : String → Option String} {K K' : TypeId → TypeKey} {f f' : Owner → Nat}
  {t t' : Table} {x y : TypeId} {s s' : Shape} {κ : TypeKey} {hooks hooks' : List (Hook TypeId)}

/-- Shapes of one key are the same but for numbers. -/
theorem like_of_keyed (h : s.Keyed K κ) (h' : s'.Keyed K' κ)
    (hc : ∀ c ∈ s.children, c < t.entries.size) (hc' : ∀ c ∈ s'.children, c < t'.entries.size) :
    Shape.Like (SameKey t K t' K') s s' := by
  generalize hκ : κ = κ' at h'
  cases h with
  | keyword =>
    cases h' <;> cases hκ
    exact .keyword
  | literal =>
    cases h' <;> simp only [TypeKey.literal.injEq, reduceCtorEq] at hκ
    exact .literal hκ
  | array =>
    cases h' <;> simp only [TypeKey.array.injEq, reduceCtorEq] at hκ
    exact .array ⟨hc _ (by simp [Shape.children]), hc' _ (by simp [Shape.children]), hκ⟩
  | union =>
    cases h' <;> simp only [TypeKey.union.injEq, reduceCtorEq] at hκ
    refine .union (forall₂_imp_mem ((List.forall₂_and_left _ _).2 ⟨hc, forall₂_of_map hκ⟩) ?_)
    exact fun x y hy hx => ⟨hx.1, hc' y hy, hx.2⟩
  | record =>
    cases h' <;> simp only [TypeKey.record.injEq, reduceCtorEq] at hκ
    refine .record (forall₂_imp_mem ((List.forall₂_and_left _ _).2
      ⟨fun c hcs => hc c.2 (List.mem_map_of_mem hcs), forall₂_of_map hκ.2.2⟩) ?_)
    rintro c c' hcs ⟨hlt, he⟩
    obtain ⟨hname, hkey⟩ := Prod.mk.inj he
    exact ⟨hname, hlt, hc' c'.2 (List.mem_map_of_mem hcs), hkey⟩

/-- Whether entries of one key have shapes of one key. -/
structure Renumbers (target : String → Option String) (K : TypeId → TypeKey) (t : Table)
    (target' : String → Option String) (K' : TypeId → TypeKey) (t' : Table) : Prop where
  left : ∃ f, t.Keyed target K f
  right : ∃ f, t'.Keyed target' K' f
  like : ∀ {x y}, SameKey t K t' K' x y →
    Shape.Like (SameKey t K t' K') (t.shape x) (t'.shape y)

namespace Renumbers

variable (h : Renumbers target K t target' K' t')

include h

theorem entries (hxy : SameKey t K t' K' x y) :
    (∃ n s s', t.entries[x]? = some ⟨some n, s⟩ ∧ t'.entries[y]? = some ⟨some n, s'⟩) ∨
      ∃ s s', t.HasInline x s ∧ t'.HasInline y s' ∧ Shape.Like (SameKey t K t' K') s s' := by
  obtain ⟨f, hk⟩ := h.left
  obtain ⟨f', hk'⟩ := h.right
  obtain ⟨hx, hy, hxy⟩ := hxy
  rcases hk.entry_cases hx with ⟨n, s, hs, hn⟩ | ⟨s, hs, hsk⟩ <;>
    rcases hk'.entry_cases hy with ⟨m, s', hs', hm⟩ | ⟨s', hs', hsk'⟩
  · rw [hn, hm] at hxy
    obtain rfl := TypeKey.declared.inj hxy
    exact Or.inl ⟨n, s, s', hs, hs'⟩
  · rw [← hxy, hn] at hsk'
    cases hsk'
  · rw [hxy, hm] at hsk
    cases hsk
  · rw [← hxy] at hsk'
    exact Or.inr ⟨s, s', hs, hs', like_of_keyed hsk hsk' (hk.tidy.children hs)
      (hk'.tidy.children hs')⟩

theorem isInlineUnion (hxy : SameKey t K t' K' x y) :
    t.isInlineUnion x = t'.isInlineUnion y := by
  unfold Table.isInlineUnion
  rcases h.entries hxy with ⟨n, s, s', hs, hs'⟩ | ⟨s, s', hs, hs', hlike⟩
  · rw [hs, hs']
    rfl
  · rw [show t.entries[x]? = _ from hs, show t'.entries[y]? = _ from hs']
    exact hlike.isUnion

theorem nameBelow {bound bound' : Nat} (hx : x < bound) (hy : y < bound')
    (hxy : SameKey t K t' K' x y) : t.nameBelow bound x = t'.nameBelow bound' y := by
  induction bound generalizing bound' x y with
  | zero => exact absurd hx (Nat.not_lt_zero _)
  | succ bound ih =>
    obtain ⟨bound', rfl⟩ := Nat.exists_eq_succ_of_ne_zero (Nat.ne_zero_of_lt hy)
    obtain ⟨f, hk⟩ := h.left
    obtain ⟨f', hk'⟩ := h.right
    rw [Table.nameBelow, Table.nameBelow]
    rcases h.entries hxy with ⟨n, s, s', hs, hs'⟩ | ⟨s, s', hs, hs', hlike⟩
    · rw [hs, hs']
    · -- the parts of an inline shape have entries from before
      have hpart : ∀ {c c'}, c ∈ s.children → c' ∈ s'.children → SameKey t K t' K' c c' →
          t.nameBelow bound c = t'.nameBelow bound' c' := by
        intro c c' hc hc' hr
        have hcx := hk.below hs c hc
        have hcy := hk'.below hs' c' hc'
        exact ih (Nat.lt_of_lt_of_le hcx (Nat.le_of_lt_succ hx))
          (Nat.lt_of_lt_of_le hcy (Nat.le_of_lt_succ hy)) hr
      rw [show t.entries[x]? = _ from hs, show t'.entries[y]? = _ from hs']
      cases hlike with
      | keyword => rfl
      | @literal l l' hl =>
        have hform := l.sourceForm_normal
        rw [hl, l'.sourceForm_normal] at hform
        cases l <;> cases l' <;> simp_all [Literal.normal]
      | array hr =>
        simp only [h.isInlineUnion hr,
          hpart (by simp [Shape.children]) (by simp [Shape.children]) hr]
      | union hr =>
        exact congrArg (String.intercalate " | ")
          (map_eq_of_forall₂ hr fun c hc c' hc' hcc => hpart hc hc' hcc)
      | record hr =>
        refine congrArg recordName (map_eq_of_forall₂ hr fun c hc c' hc' hcc => ?_)
        exact Prod.ext hcc.1 (hpart (List.mem_map_of_mem hc) (List.mem_map_of_mem hc') hcc.2)

theorem typeName (hxy : SameKey t K t' K' x y) :
    t.oracle.typeName x = t'.oracle.typeName y := h.nameBelow hxy.1 hxy.2.1 hxy

theorem conversion (hh : List.Forall₂ (fun k k' => k.conversion = k'.conversion ∧
      SameKey t K t' K' k.result k'.result) hooks hooks') (hxy : SameKey t K t' K' x y) :
    (hook? hooks x).map (·.conversion) = (hook? hooks' y).map (·.conversion) := by
  obtain ⟨f, hk⟩ := h.left
  obtain ⟨f', hk'⟩ := h.right
  induction hh with
  | nil => rfl
  | @cons k k' ks ks' hkk _ ih =>
    have hsame : (k.result == x) = (k'.result == y) := by
      rw [Bool.eq_iff_iff, beq_iff_eq, beq_iff_eq]
      constructor
      · rintro rfl
        exact hk'.injective hkk.2.2.1 hxy.2.1 (hkk.2.2.2.symm.trans hxy.2.2)
      · rintro rfl
        exact hk.injective hkk.2.1 hxy.1 (hkk.2.2.2.trans hxy.2.2.symm)
    rw [hook?, hook?, List.find?_cons, List.find?_cons, hsame]
    cases k'.result == y
    · exact ih
    · exact congrArg some hkk.1

theorem mirrors (hh : List.Forall₂ (fun k k' => k.conversion = k'.conversion ∧
      SameKey t K t' K' k.result k'.result) hooks hooks') :
    Mirrors t.oracle hooks t'.oracle hooks' (SameKey t K t' K') where
  left := by
    rintro x y y' ⟨-, hy, hxy⟩ ⟨-, hy', hxy'⟩
    exact h.right.choose_spec.injective hy hy' (hxy.symm.trans hxy')
  right := by
    rintro x x' y ⟨hx, -, hxy⟩ ⟨hx', -, hxy'⟩
    exact h.left.choose_spec.injective hx hx' (hxy.trans hxy'.symm)
  hook hxy := by rw [← Option.isSome_map, h.conversion hh hxy, Option.isSome_map]
  trait hxy := by
    rw [trait?_oracle, trait?_oracle]
    exact (h.like hxy).trait?
  literal hxy := by
    have hlike := h.like hxy
    simp only [oracle, literalValue]
    generalize t.shape _ = s at hlike
    generalize t'.shape _ = s' at hlike
    cases hlike <;> rfl
  members hxy := by
    have hlike := h.like hxy
    simp only [oracle, unionMembers]
    generalize t.shape _ = s at hlike
    generalize t'.shape _ = s' at hlike
    cases hlike with
    | union hr => exact hr
    | _ => exact .nil
  fields hxy := by
    have hlike := h.like hxy
    simp only [oracle, recordFields]
    generalize t.shape _ = s at hlike
    generalize t'.shape _ = s' at hlike
    cases hlike with
    | record hr => exact hr.imp fun _ _ hf => hf.2
    | _ => exact .nil
  element hxy := by
    have hlike := h.like hxy
    simp only [oracle, arrayElement]
    generalize t.shape _ = s at hlike
    generalize t'.shape _ = s' at hlike
    cases hlike with
    | array hr => exact .some hr
    | _ => exact .none
  conversion := h.conversion hh
  value hxy := by
    have hlike := h.like hxy
    simp only [oracle, literalValue]
    generalize t.shape _ = s at hlike
    generalize t'.shape _ = s' at hlike
    cases hlike with
    | literal hl => exact congrArg some hl
    | _ => rfl
  names hxy := by
    have hlike := h.like hxy
    simp only [oracle, recordFields]
    generalize t.shape _ = s at hlike
    generalize t'.shape _ = s' at hlike
    cases hlike with
    | record hr => exact map_eq_of_forall₂ hr fun _ _ _ _ hf => hf.1
    | _ => rfl

end Renumbers

end Table

end Conform
