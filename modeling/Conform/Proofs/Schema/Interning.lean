import Mathlib.Data.List.Forall2
import Conform.Proofs.Schema.Lowering
import Conform.Proofs.Schema.Same

/-! Interning type expressions. A table only grows by it, all that refers to entries refers to
ones that are there, and the entry of an expression spells the expression. -/

namespace Conform

namespace Shape

/-- The entries that a shape refers to. -/
def children : Shape → List TypeId
  | .array element => [element]
  | .union members => members
  | .record fields => fields.map (·.2)
  | _ => []

end Shape

namespace Table

/-- Whether an entry is that of an inline shape. -/
def HasInline (t : Table) (d : TypeId) (shape : Shape) : Prop :=
  t.entries[d]? = some ⟨none, shape⟩

/-- Whether an expression is a declared name with this entry. -/
def Names (t : Table) (e : TypeExpr) (d : TypeId) : Prop := ∃ n, e = .name n ∧ t.lookup n = some d

mutual

/-- Whether a shape is that of an expression which is no declared name. -/
def Lowers (t : Table) : TypeExpr → Shape → Prop
  | .name n, s => t.lookup n = none ∧ ∃ k, Keyword.ofName? n = some k ∧ s = .keyword k
  | .literal l, s => ∃ l', s = .literal l' ∧ l'.same l
  | .bigint text, s => ∃ i, BigInt.parse? text = some i ∧ s = .literal (.bigint i)
  | .array e, s => ∃ d, s = .array d ∧ (t.Names e d ∨ ∃ s', t.HasInline d s' ∧ Lowers t e s')
  | .union es, s => ∃ ds, s = .union ds ∧ LowersAll t es ds
  | .record fs, s => ∃ ds, s = .record ds ∧ LowersFields t fs ds

def LowersAll (t : Table) : List TypeExpr → List TypeId → Prop
  | [], ds => ds = []
  | e :: es, ds => ∃ d ds', ds = d :: ds' ∧
      (t.Names e d ∨ ∃ s, t.HasInline d s ∧ Lowers t e s) ∧ LowersAll t es ds'

def LowersFields (t : Table) : List (String × TypeExpr) → List (String × TypeId) → Prop
  | [], ds => ds = []
  | (name, e) :: fs, ds => ∃ d ds', ds = (name, d) :: ds' ∧
      (t.Names e d ∨ ∃ s, t.HasInline d s ∧ Lowers t e s) ∧ LowersFields t fs ds'

end

/-- Whether an entry is that of an expression. -/
def Spells (t : Table) (e : TypeExpr) (d : TypeId) : Prop :=
  t.Names e d ∨ ∃ s, t.HasInline d s ∧ t.Lowers e s

theorem lowersAll_iff {t : Table} {es : List TypeExpr} {ds : List TypeId} :
    t.LowersAll es ds ↔ List.Forall₂ t.Spells es ds := by
  induction es generalizing ds with
  | nil => simp [LowersAll]
  | cons e es ih =>
    simp only [LowersAll, List.forall₂_cons_left_iff, ih, Spells]
    constructor
    · rintro ⟨d, ds', rfl, he, hes⟩
      exact ⟨d, ds', he, hes, rfl⟩
    · rintro ⟨d, ds', he, hes, rfl⟩
      exact ⟨d, ds', rfl, he, hes⟩

theorem lowersFields_iff {t : Table} {fs : List (String × TypeExpr)}
    {ds : List (String × TypeId)} : t.LowersFields fs ds ↔
      List.Forall₂ (fun f d => d.1 = f.1 ∧ t.Spells f.2 d.2) fs ds := by
  induction fs generalizing ds with
  | nil => simp [LowersFields]
  | cons f fs ih =>
    obtain ⟨name, e⟩ := f
    simp only [LowersFields, List.forall₂_cons_left_iff, ih, Spells]
    constructor
    · rintro ⟨d, ds', rfl, he, hes⟩
      exact ⟨(name, d), ds', ⟨rfl, he⟩, hes, rfl⟩
    · rintro ⟨⟨_, d⟩, ds', ⟨rfl, he⟩, hes, rfl⟩
      exact ⟨d, ds', rfl, he, hes⟩

theorem Lowers.of_same {t : Table} {e : TypeExpr} {s s' : Shape} (h : t.Lowers e s)
    (hs : s'.same s) : t.Lowers e s' := by
  have hlit : (∃ l l', s = .literal l ∧ s' = .literal l' ∧ l'.same l) ∨ s' = s := by
    cases s <;> cases s' <;> simp_all [Shape.same]
  rcases hlit with ⟨l, l', rfl, rfl, hl⟩ | rfl
  · cases e with
    | literal value =>
      obtain ⟨m, hm, hs⟩ := h
      cases hm
      rw [Literal.same_iff] at hl hs
      exact ⟨l', rfl, Literal.same_iff.2 (hl.trans hs)⟩
    | bigint text =>
      obtain ⟨i, hi, hm⟩ := h
      cases hm
      obtain rfl : l' = .bigint i := by cases l' <;> simp_all [Literal.same]
      exact ⟨i, hi, rfl⟩
    | name n =>
      obtain ⟨-, k, -, hk⟩ := h
      cases hk
    | array e =>
      obtain ⟨d, hd, -⟩ := h
      cases hd
    | union es =>
      obtain ⟨d, hd, -⟩ := h
      cases hd
    | record fs =>
      obtain ⟨d, hd, -⟩ := h
      cases hd
  · exact h

/-! ### Growing -/

/-- Whether a table keeps the names and the inline entries of an earlier one. -/
structure Keeps (t t' : Table) : Prop where
  names : t'.names = t.names
  inline : ∀ {d s}, t.HasInline d s → t'.HasInline d s

theorem Keeps.refl (t : Table) : t.Keeps t := ⟨rfl, fun h => h⟩

theorem Keeps.trans {t t' t'' : Table} (h : t.Keeps t') (h' : t'.Keeps t'') : t.Keeps t'' :=
  ⟨h'.names.trans h.names, fun hs => h'.inline (h.inline hs)⟩

theorem Keeps.lookup {t t' : Table} (h : t.Keeps t') (n : String) : t'.lookup n = t.lookup n := by
  rw [Table.lookup, Table.lookup, h.names]

theorem Names.mono {t t' : Table} (hk : t.Keeps t') {e : TypeExpr} {d : TypeId}
    (h : t.Names e d) : t'.Names e d := by
  obtain ⟨n, rfl, hn⟩ := h
  exact ⟨n, rfl, by rw [hk.lookup, hn]⟩

mutual

theorem Lowers.mono {t t' : Table} (hk : t.Keeps t') {e : TypeExpr} {s : Shape}
    (h : t.Lowers e s) : t'.Lowers e s := by
  cases e with
  | name n =>
    obtain ⟨hn, k⟩ := h
    exact ⟨by rw [hk.lookup, hn], k⟩
  | literal l => exact h
  | bigint text => exact h
  | array e =>
    obtain ⟨d, rfl, he | ⟨s', hs', he⟩⟩ := h
    · exact ⟨d, rfl, Or.inl (he.mono hk)⟩
    · exact ⟨d, rfl, Or.inr ⟨s', hk.inline hs', Lowers.mono (e := e) hk he⟩⟩
  | union es =>
    obtain ⟨ds, rfl, h⟩ := h
    exact ⟨ds, rfl, LowersAll.mono hk h⟩
  | record fs =>
    obtain ⟨ds, rfl, h⟩ := h
    exact ⟨ds, rfl, LowersFields.mono hk h⟩

theorem LowersAll.mono {t t' : Table} (hk : t.Keeps t') {es : List TypeExpr} {ds : List TypeId}
    (h : t.LowersAll es ds) : t'.LowersAll es ds := by
  cases es with
  | nil => exact h
  | cons e es =>
    obtain ⟨d, ds', rfl, he, hes⟩ := h
    refine ⟨d, ds', rfl, ?_, LowersAll.mono hk hes⟩
    rcases he with he | ⟨s, hs, he⟩
    · exact Or.inl (he.mono hk)
    · exact Or.inr ⟨s, hk.inline hs, Lowers.mono (e := e) hk he⟩

theorem LowersFields.mono {t t' : Table} (hk : t.Keeps t') {fs : List (String × TypeExpr)}
    {ds : List (String × TypeId)} (h : t.LowersFields fs ds) : t'.LowersFields fs ds := by
  cases fs with
  | nil => exact h
  | cons f fs =>
    obtain ⟨name, e⟩ := f
    obtain ⟨d, ds', rfl, he, hes⟩ := h
    refine ⟨d, ds', rfl, ?_, LowersFields.mono hk hes⟩
    rcases he with he | ⟨s, hs, he⟩
    · exact Or.inl (he.mono hk)
    · exact Or.inr ⟨s, hk.inline hs, Lowers.mono (e := e) hk he⟩

end

theorem Spells.mono {t t' : Table} (hk : t.Keeps t') {e : TypeExpr} {d : TypeId}
    (h : t.Spells e d) : t'.Spells e d := by
  rcases h with h | ⟨s, hs, h⟩
  · exact Or.inl (h.mono hk)
  · exact Or.inr ⟨s, hk.inline hs, h.mono hk⟩

/-- Whether a table only has more entries than an earlier one. -/
structure Extends (t t' : Table) : Prop where
  names : t'.names = t.names
  size : t.entries.size ≤ t'.entries.size
  entry : ∀ d < t.entries.size, t'.entries[d]? = t.entries[d]?

theorem Extends.refl (t : Table) : t.Extends t := ⟨rfl, Nat.le_refl _, fun _ _ => rfl⟩

theorem Extends.trans {t t' t'' : Table} (h : t.Extends t') (h' : t'.Extends t'') :
    t.Extends t'' :=
  ⟨h'.names.trans h.names, Nat.le_trans h.size h'.size, fun d hd =>
    (h'.entry d (Nat.lt_of_lt_of_le hd h.size)).trans (h.entry d hd)⟩

theorem lt_of_entry {t : Table} {d : TypeId} {e : Entry} (h : t.entries[d]? = some e) :
    d < t.entries.size := (Array.getElem?_eq_some_iff.1 h).1

theorem Extends.keeps {t t' : Table} (h : t.Extends t') : t.Keeps t' :=
  ⟨h.names, fun hs => (h.entry _ (lt_of_entry hs)).trans hs⟩

/-- What holds of a table between any two steps. Equal inline shapes have one entry. -/
structure Tidy (t : Table) : Prop where
  names : ∀ {n d}, t.lookup n = some d → d < t.entries.size
  named : ∀ {n d s}, t.lookup n = some d → ¬ t.HasInline d s
  children : ∀ {d : TypeId} {e : Entry}, t.entries[d]? = some e →
    ∀ c ∈ e.shape.children, c < t.entries.size
  unique : ∀ {i j : TypeId} {a b : Shape}, t.HasInline i a → t.HasInline j b → a.same b → i = j

theorem entry_alloc {t : Table} {e : Entry} {d : TypeId} :
    (t.alloc e).2.entries[d]? = if d = t.entries.size then some e else t.entries[d]? := by
  simp only [alloc, Array.getElem?_push]

theorem extends_alloc (t : Table) (e : Entry) : t.Extends (t.alloc e).2 := by
  refine ⟨rfl, by simp [alloc], fun d hd => ?_⟩
  rw [entry_alloc, if_neg (Nat.ne_of_lt hd)]

theorem Tidy.alloc {t : Table} {shape : Shape} (h : t.Tidy)
    (hc : ∀ c ∈ shape.children, c < t.entries.size)
    (hnew : ∀ {i a}, t.HasInline i a → a.same shape = false) :
    (t.alloc ⟨none, shape⟩).2.Tidy := by
  have hsize : (t.alloc ⟨none, shape⟩).2.entries.size = t.entries.size + 1 := by simp [Table.alloc]
  have hinline : ∀ {i a}, (t.alloc ⟨none, shape⟩).2.HasInline i a →
      (i = t.entries.size ∧ a = shape) ∨ t.HasInline i a := by
    intro i a hi
    rw [HasInline, entry_alloc] at hi
    split_ifs at hi with he
    · cases hi
      exact Or.inl ⟨he, rfl⟩
    · exact Or.inr hi
  refine ⟨?_, ?_, ?_, ?_⟩
  · intro n d hn
    rw [hsize]
    exact Nat.lt_succ_of_lt (h.names hn)
  · intro n d s hn hs
    rcases hinline hs with ⟨rfl, -⟩ | hs
    · exact Nat.lt_irrefl _ (h.names hn)
    · exact h.named hn hs
  · intro d e hd c hce
    rw [hsize]
    rw [entry_alloc] at hd
    split_ifs at hd
    · cases hd
      exact Nat.lt_succ_of_lt (hc c hce)
    · exact Nat.lt_succ_of_lt (h.children hd c hce)
  · intro i j a b hi hj hab
    rcases hinline hi with ⟨rfl, rfl⟩ | hi'
    · rcases hinline hj with ⟨rfl, -⟩ | hj'
      · rfl
      · have := hnew hj'
        rw [Shape.same_symm hab] at this
        cases this
    · rcases hinline hj with ⟨-, rfl⟩ | hj'
      · rw [hnew hi'] at hab
        cases hab
      · exact h.unique hi' hj' hab

/-- An inline shape has an entry or gets a new one. -/
theorem inline_cases (t : Table) (shape : Shape) :
    (∃ d s, t.HasInline d s ∧ s.same shape ∧ t.inline shape = (d, t)) ∨
      (∀ {d s}, t.HasInline d s → s.same shape = false) ∧
        t.inline shape = t.alloc ⟨none, shape⟩ := by
  unfold inline
  split
  · rename_i d hd
    obtain ⟨hlt, hs, -⟩ := Array.findIdx?_eq_some_iff_getElem.1 hd
    simp only [Bool.and_eq_true, Option.isNone_iff_eq_none] at hs
    refine Or.inl ⟨d, t.entries[d].shape, ?_, hs.2, rfl⟩
    rw [HasInline, Array.getElem?_eq_getElem hlt, ← hs.1]
  · rename_i hnone
    refine Or.inr ⟨fun {d s} hd => ?_, rfl⟩
    rw [Array.findIdx?_eq_none_iff] at hnone
    have := hnone _ (Array.mem_of_getElem? hd)
    simpa using this

theorem inline_of_hasInline {t : Table} (ht : t.Tidy) {d : TypeId} {s shape : Shape}
    (h : t.HasInline d s) (hs : s.same shape) : t.inline shape = (d, t) := by
  rcases t.inline_cases shape with ⟨i, a, hi, ha, he⟩ | ⟨hnew, -⟩
  · rw [he, ht.unique hi h (Shape.same_trans ha (Shape.same_symm hs))]
  · rw [hnew h] at hs
    cases hs

theorem inline_spec {t : Table} {shape : Shape} (h : t.Tidy)
    (hc : ∀ c ∈ shape.children, c < t.entries.size) :
    (t.inline shape).2.Tidy ∧ t.Extends (t.inline shape).2 ∧
      ∃ s, (t.inline shape).2.HasInline (t.inline shape).1 s ∧ (s = shape ∨ s.same shape) := by
  rcases t.inline_cases shape with ⟨d, s, hd, hs, hi⟩ | ⟨hnew, hi⟩
  · rw [hi]
    exact ⟨h, .refl t, s, hd, Or.inr hs⟩
  · rw [hi]
    refine ⟨h.alloc hc hnew, extends_alloc t _, shape, ?_, Or.inl rfl⟩
    rw [HasInline, entry_alloc]
    exact if_pos rfl

/-- What lowering an expression comes to. -/
def Lowered.Is (t : Table) (e : TypeExpr) : Lowered → Prop
  | .known d => t.Names e d
  | .fresh s => t.Lowers e s ∧ ∀ c ∈ s.children, c < t.entries.size

theorem settle_spec {t : Table} {e : TypeExpr} {r : Result Lowered} {d : TypeId} {t' : Table}
    (h : settle r = (.ok d, t'))
    (hr : ∀ l u, r = (.ok l, u) → u.Tidy ∧ t.Extends u ∧ l.Is u e) :
    t'.Tidy ∧ t.Extends t' ∧ t'.Spells e d := by
  rcases settle_eq_ok h with hr' | ⟨shape, u, hr', hi⟩
  · obtain ⟨ht, hx, hl⟩ := hr _ _ hr'
    exact ⟨ht, hx, Or.inl hl⟩
  · obtain ⟨ht, hx, hl, hc⟩ := hr _ _ hr'
    obtain ⟨ht', hx', s, hs, hsame⟩ := inline_spec ht hc
    rw [hi] at ht' hx' hs
    refine ⟨ht', hx.trans hx', Or.inr ⟨s, hs, ?_⟩⟩
    have hl' := hl.mono hx'.keeps
    rcases hsame with rfl | hsame
    · exact hl'
    · exact hl'.of_same hsame

theorem Spells.lt {t : Table} (ht : t.Tidy) {e : TypeExpr} {d : TypeId} (h : t.Spells e d) :
    d < t.entries.size := by
  rcases h with ⟨n, -, hn⟩ | ⟨s, hs, -⟩
  · exact ht.names hn
  · exact lt_of_entry hs

mutual

/-- Lowering an expression gives its entry, or its shape. -/
theorem lower_spec {t t' : Table} {e : TypeExpr} {l : Lowered} (ht : t.Tidy)
    (h : t.lower e = (.ok l, t')) : t'.Tidy ∧ t.Extends t' ∧ l.Is t' e := by
  cases e with
  | name n =>
    rw [lower] at h
    split at h <;> cases h
    · rename_i id hn
      exact ⟨ht, .refl t, n, rfl, hn⟩
    · rename_i k hn hk
      exact ⟨ht, .refl t, ⟨hn, k, hk, rfl⟩, by simp [Shape.children]⟩
  | literal value =>
    rw [lower] at h
    cases h
    exact ⟨ht, .refl t, ⟨value, rfl, Literal.same_iff.2 rfl⟩, by simp [Shape.children]⟩
  | bigint text =>
    rw [lower] at h
    split at h <;> cases h
    rename_i i hi
    exact ⟨ht, .refl t, ⟨i, hi, rfl⟩, by simp [Shape.children]⟩
  | array element =>
    rw [lower] at h
    obtain ⟨d, hs, rfl⟩ := shaped_eq_ok h
    obtain ⟨ht', hx, hd⟩ := settle_spec hs fun l u hl => lower_spec (e := element) ht hl
    exact ⟨ht', hx, ⟨d, rfl, hd⟩, by simpa [Shape.children] using hd.lt ht'⟩
  | union members =>
    rw [lower] at h
    obtain ⟨ds, hs, rfl⟩ := shaped_eq_ok h
    obtain ⟨ht', hx, hd, hlt⟩ := internAll_spec ht hs
    exact ⟨ht', hx, ⟨ds, rfl, hd⟩, hlt⟩
  | record fields =>
    rw [lower] at h
    obtain ⟨ds, hs, rfl⟩ := shaped_eq_ok h
    obtain ⟨ht', hx, hd, hlt⟩ := internFields_spec ht hs
    refine ⟨ht', hx, ⟨ds, rfl, hd⟩, ?_⟩
    intro c hc
    obtain ⟨f, hf, rfl⟩ := List.mem_map.1 hc
    exact hlt f hf

theorem internAll_spec {t t' : Table} {es : List TypeExpr} {ds : List TypeId} (ht : t.Tidy)
    (h : t.internAll es = (.ok ds, t')) :
    t'.Tidy ∧ t.Extends t' ∧ t'.LowersAll es ds ∧ ∀ d ∈ ds, d < t'.entries.size := by
  cases es with
  | nil =>
    rw [internAll] at h
    cases h
    exact ⟨ht, .refl t, rfl, by simp⟩
  | cons e es =>
    obtain ⟨d, t₁, ds, hs, hes, rfl⟩ := internAll_cons_eq_ok.1 h
    obtain ⟨ht₁, hx₁, hd⟩ := settle_spec hs fun l u hl => lower_spec (e := e) ht hl
    obtain ⟨ht', hx, hds, hlt⟩ := internAll_spec ht₁ hes
    refine ⟨ht', hx₁.trans hx, ⟨d, ds, rfl, hd.mono hx.keeps, hds⟩, ?_⟩
    intro c hc
    rcases List.mem_cons.1 hc with rfl | hc
    · exact Nat.lt_of_lt_of_le (hd.lt ht₁) hx.size
    · exact hlt c hc

theorem internFields_spec {t t' : Table} {fs : List (String × TypeExpr)}
    {ds : List (String × TypeId)} (ht : t.Tidy) (h : t.internFields fs = (.ok ds, t')) :
    t'.Tidy ∧ t.Extends t' ∧ t'.LowersFields fs ds ∧ ∀ d ∈ ds, d.2 < t'.entries.size := by
  cases fs with
  | nil =>
    rw [internFields] at h
    cases h
    exact ⟨ht, .refl t, rfl, by simp⟩
  | cons f fs =>
    obtain ⟨name, e⟩ := f
    obtain ⟨d, t₁, ds, hs, hes, rfl⟩ := internFields_cons_eq_ok.1 h
    obtain ⟨ht₁, hx₁, hd⟩ := settle_spec hs fun l u hl => lower_spec (e := e) ht hl
    obtain ⟨ht', hx, hds, hlt⟩ := internFields_spec ht₁ hes
    refine ⟨ht', hx₁.trans hx, ⟨d, ds, rfl, hd.mono hx.keeps, hds⟩, ?_⟩
    intro c hc
    rcases List.mem_cons.1 hc with rfl | hc
    · exact Nat.lt_of_lt_of_le (hd.lt ht₁) hx.size
    · exact hlt c hc

end

/-- Interning an expression gives the entry that spells it. -/
theorem intern_spec {t t' : Table} {e : TypeExpr} {d : TypeId} (ht : t.Tidy)
    (h : t.intern e = (.ok d, t')) : t'.Tidy ∧ t.Extends t' ∧ t'.Spells e d :=
  settle_spec h fun _ _ hl => lower_spec ht hl

end Table

end Conform
