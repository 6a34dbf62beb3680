import Conform.Schema.Table

/-! The steps of interning a type expression. They leave the declared names alone, and nothing but
these decides whether there is an entry. -/

namespace Conform

/-- The keyword that a body is, whatever is declared. -/
def TypeExpr.keyword? : TypeExpr → Option Keyword
  | .name n => Keyword.ofName? n
  | _ => none

namespace Table

variable {t t' u : Table} {e : TypeExpr} {d : TypeId}

/-- A table with a slot for a declaration, if that is no alias. -/
def slot (t : Table) (f : String × TypeExpr) : Table :=
  if f.2.isAlias then t else
    (t.alloc ⟨some f.1, .pending⟩).2.bind f.1 (t.alloc ⟨some f.1, .pending⟩).1

theorem settle_eq_ok {r : Result Lowered} (h : settle r = (.ok d, t)) :
    r = (.ok (.known d), t) ∨ ∃ shape t', r = (.ok (.fresh shape), t') ∧
      t'.inline shape = (d, t) := by
  unfold settle at h
  split at h
  · cases h
  · cases h
    exact Or.inl rfl
  · rename_i shape t'
    refine Or.inr ⟨shape, t', rfl, ?_⟩
    simpa [Prod.ext_iff] using h

theorem shaped_eq_ok {α : Type} {f : α → Shape} {r : Result α} {l : Lowered}
    (h : shaped f r = (.ok l, t)) : ∃ a, r = (.ok a, t) ∧ l = .fresh (f a) := by
  unfold shaped at h
  split at h
  · cases h
  · rename_i a t'
    cases h
    exact ⟨a, rfl, rfl⟩

theorem internAll_cons_eq_ok {es : List TypeExpr} {ds : List TypeId} :
    t.internAll (e :: es) = (.ok ds, u) ↔ ∃ d t₁ ds₁, t.intern e = (.ok d, t₁) ∧
      t₁.internAll es = (.ok ds₁, u) ∧ ds = d :: ds₁ := by
  rw [internAll, ← intern]
  constructor
  · intro h
    split at h
    · cases h
    · rename_i d t₁ hd
      split at h
      · cases h
      · rename_i ds₁ u hds
        cases h
        exact ⟨d, t₁, ds₁, hd, hds, rfl⟩
  · rintro ⟨d, t₁, ds₁, hd, hds, rfl⟩
    simp only [hd, hds]

theorem internFields_cons_eq_ok {name : String} {fs : List (String × TypeExpr)}
    {ds : List (String × TypeId)} :
    t.internFields ((name, e) :: fs) = (.ok ds, u) ↔ ∃ d t₁ ds₁, t.intern e = (.ok d, t₁) ∧
      t₁.internFields fs = (.ok ds₁, u) ∧ ds = (name, d) :: ds₁ := by
  rw [internFields, ← intern]
  constructor
  · intro h
    split at h
    · cases h
    · rename_i d t₁ hd
      split at h
      · cases h
      · rename_i ds₁ u hds
        cases h
        exact ⟨d, t₁, ds₁, hd, hds, rfl⟩
  · rintro ⟨d, t₁, ds₁, hd, hds, rfl⟩
    simp only [hd, hds]

theorem inline_names (t : Table) (s : Shape) : (t.inline s).2.names = t.names := by
  unfold inline
  split <;> rfl

/-- Where something is lowered in one table it has an entry in another with the same names. -/
theorem settle_names {r r' : Result Lowered} (h : settle r = (.ok d, u))
    (hr : ∀ {l v}, r = (.ok l, v) → v.names = t.names ∧
      ∃ l' v', r' = (.ok l', v') ∧ v'.names = t.names) :
    u.names = t.names ∧ ∃ d' u', settle r' = (.ok d', u') ∧ u'.names = t.names := by
  have hu : u.names = t.names ∧ ∃ l' v', r' = (.ok l', v') ∧ v'.names = t.names := by
    rcases settle_eq_ok h with hl | ⟨s, v, hl, hi⟩
    · exact hr hl
    · have hv := inline_names v s
      rw [hi] at hv
      exact ⟨hv.trans (hr hl).1, (hr hl).2⟩
  obtain ⟨hu, l', v', rfl, hv'⟩ := hu
  refine ⟨hu, ?_⟩
  cases l' with
  | known d' => exact ⟨d', v', rfl, hv'⟩
  | fresh s => exact ⟨_, _, rfl, (inline_names v' s).trans hv'⟩

theorem shaped_names {α : Type} {f : α → Shape} {r r' : Result α} {l : Lowered}
    (h : shaped f r = (.ok l, u)) (hr : ∀ {a}, r = (.ok a, u) → u.names = t.names ∧
      ∃ a' v', r' = (.ok a', v') ∧ v'.names = t.names) :
    u.names = t.names ∧ ∃ l' u', shaped f r' = (.ok l', u') ∧ u'.names = t.names := by
  obtain ⟨a, ha, -⟩ := shaped_eq_ok h
  obtain ⟨hu, a', v', rfl, hv'⟩ := hr ha
  exact ⟨hu, _, v', rfl, hv'⟩

mutual

theorem lower_names {t t' u : Table} {e : TypeExpr} {l : Lowered} (hn : t'.names = t.names)
    (h : t.lower e = (.ok l, u)) :
    u.names = t.names ∧ ∃ l' u', t'.lower e = (.ok l', u') ∧ u'.names = t.names := by
  cases e with
  | name n =>
    have hlookup : t'.lookup n = t.lookup n := by rw [lookup, lookup, hn]
    rw [lower, hlookup]
    rw [lower] at h
    split at h <;> cases h
    · rename_i hd
      exact ⟨rfl, _, _, rfl, hn⟩
    · exact ⟨rfl, _, _, rfl, hn⟩
  | literal value =>
    rw [lower] at h ⊢
    cases h
    exact ⟨rfl, _, _, rfl, hn⟩
  | bigint text =>
    rw [lower] at h ⊢
    split at h <;> cases h
    exact ⟨rfl, _, _, rfl, hn⟩
  | array element =>
    rw [lower] at h ⊢
    exact shaped_names h fun hs => settle_names hs fun hl => lower_names (e := element) hn hl
  | union members =>
    rw [lower] at h ⊢
    exact shaped_names h fun hs => internAll_names hn hs
  | record fields =>
    rw [lower] at h ⊢
    exact shaped_names h fun hs => internFields_names hn hs

theorem internAll_names {t t' u : Table} {es : List TypeExpr} {ds : List TypeId}
    (hn : t'.names = t.names) (h : t.internAll es = (.ok ds, u)) :
    u.names = t.names ∧ ∃ ds' u', t'.internAll es = (.ok ds', u') ∧ u'.names = t.names := by
  cases es with
  | nil =>
    rw [internAll] at h ⊢
    cases h
    exact ⟨rfl, _, _, rfl, hn⟩
  | cons e es =>
    obtain ⟨d, t₁, ds₁, hd, hds, -⟩ := internAll_cons_eq_ok.1 h
    obtain ⟨ht₁, d', t₁', hd', ht₁'⟩ := settle_names hd fun hl => lower_names (e := e) hn hl
    obtain ⟨hu, ds', u', hds', hu'⟩ := internAll_names (ht₁'.trans ht₁.symm) hds
    exact ⟨hu.trans ht₁, _, u', internAll_cons_eq_ok.2 ⟨d', t₁', ds', hd', hds', rfl⟩,
      hu'.trans ht₁⟩

theorem internFields_names {t t' u : Table} {fs : List (String × TypeExpr)}
    {ds : List (String × TypeId)} (hn : t'.names = t.names)
    (h : t.internFields fs = (.ok ds, u)) :
    u.names = t.names ∧ ∃ ds' u', t'.internFields fs = (.ok ds', u') ∧ u'.names = t.names := by
  cases fs with
  | nil =>
    rw [internFields] at h ⊢
    cases h
    exact ⟨rfl, _, _, rfl, hn⟩
  | cons f fs =>
    obtain ⟨name, e⟩ := f
    obtain ⟨d, t₁, ds₁, hd, hds, -⟩ := internFields_cons_eq_ok.1 h
    obtain ⟨ht₁, d', t₁', hd', ht₁'⟩ := settle_names hd fun hl => lower_names (e := e) hn hl
    obtain ⟨hu, ds', u', hds', hu'⟩ := internFields_names (ht₁'.trans ht₁.symm) hds
    exact ⟨hu.trans ht₁, _, u', internFields_cons_eq_ok.2 ⟨d', t₁', ds', hd', hds', rfl⟩,
      hu'.trans ht₁⟩

end

/-- An expression that is interned in one table can be in every one with the same names. -/
theorem exists_intern (hn : t'.names = t.names) (h : t.intern e = (.ok d, u)) :
    ∃ d' u', t'.intern e = (.ok d', u') ∧ u'.names = t.names :=
  (settle_names h fun hl => lower_names hn hl).2

/-! ### Bodies -/

theorem lower_known (h : t.lower e = (.ok (.known d), t')) : ∃ n, e = .name n := by
  cases e with
  | name n => exact ⟨n, rfl⟩
  | literal value =>
    rw [lower] at h
    cases h
  | bigint text =>
    rw [lower] at h
    split at h <;> cases h
  | array element =>
    rw [lower] at h
    obtain ⟨_, _, hl⟩ := shaped_eq_ok h
    cases hl
  | union members =>
    rw [lower] at h
    obtain ⟨_, _, hl⟩ := shaped_eq_ok h
    cases hl
  | record fields =>
    rw [lower] at h
    obtain ⟨_, _, hl⟩ := shaped_eq_ok h
    cases hl

/-- A declared body is a keyword, or what it comes to where it is lowered. -/
theorem body_eq_ok {s : Shape} (h : t.body e = (.ok s, t')) :
    (∃ k, e.keyword? = some k ∧ s = .keyword k ∧ t' = t) ∨
      e.keyword? = none ∧ t.lower e = (.ok (.fresh s), t') := by
  unfold body at h
  split at h
  · split at h <;> cases h
    rename_i n k hk
    exact Or.inl ⟨k, hk, rfl, rfl⟩
  · rename_i hname
    have hkey : e.keyword? = none := by
      cases e with
      | name n => exact absurd rfl (hname n)
      | _ => rfl
    split at h <;> cases h
    · exact Or.inr ⟨hkey, ‹_›⟩
    · rename_i d hl
      obtain ⟨n, rfl⟩ := lower_known hl
      exact absurd rfl (hname n)

/-! ### Filling slots -/

/-- A table with a shape in the slot that a name is bound to. -/
def fillSlot (t : Table) (name : String) (s : Shape) : Table :=
  (t.lookup name).elim t fun id => t.setShape id s

theorem names_fillSlot (t : Table) (name : String) (s : Shape) :
    (t.fillSlot name s).names = t.names := by
  unfold fillSlot
  cases t.lookup name <;> rfl

theorem fillSlot_of_lookup {name : String} {s : Shape} (h : t.lookup name = some d) :
    t.fillSlot name s = t.setShape d s := by
  rw [fillSlot, h, Option.elim]

theorem fill_cons_of_alias {name : String} (ha : e.isAlias) (rest : Declarations) :
    fill ((name, e) :: rest) t = fill rest t := by
  rw [fill, if_pos ha]

theorem fill_cons_of_body {name : String} {s : Shape} (ha : e.isAlias = false)
    (hb : t.body e = (.ok s, u)) (rest : Declarations) :
    fill ((name, e) :: rest) t = fill rest (u.fillSlot name s) := by
  simp only [fill, ha, hb, fillSlot]
  cases u.lookup name <;> rfl

theorem fill_cons_of_error {name : String} {err : ReferenceError} (ha : e.isAlias = false)
    (hb : t.body e = (.error err, u)) (rest : Declarations) :
    fill ((name, e) :: rest) t = .error err := by
  simp only [fill, ha, hb]
  rfl

/-- The slot of a declaration is filled before those of the declarations behind it. -/
theorem fill_cons_eq_ok {name : String} {rest : Declarations} :
    fill ((name, e) :: rest) t = .ok t' ↔ e.isAlias ∧ fill rest t = .ok t' ∨
      e.isAlias = false ∧ ∃ s u, t.body e = (.ok s, u) ∧ fill rest (u.fillSlot name s) = .ok t' := by
  cases ha : e.isAlias with
  | true => simp [fill_cons_of_alias ha]
  | false =>
    rcases hb : t.body e with ⟨err | s, u⟩
    · simp [fill_cons_of_error ha hb]
    · simp [fill_cons_of_body ha hb, and_assoc]

theorem fill_cons_eq_error {name : String} {rest : Declarations} {err : ReferenceError} :
    fill ((name, e) :: rest) t = .error err ↔ e.isAlias ∧ fill rest t = .error err ∨
      e.isAlias = false ∧ ((t.body e).1 = .error err ∨
        ∃ s u, t.body e = (.ok s, u) ∧ fill rest (u.fillSlot name s) = .error err) := by
  cases ha : e.isAlias with
  | true => simp [fill_cons_of_alias ha]
  | false =>
    rcases hb : t.body e with ⟨err' | s, u⟩
    · simp [fill_cons_of_error ha hb]
    · simp [fill_cons_of_body ha hb, and_assoc]

end Table

end Conform
