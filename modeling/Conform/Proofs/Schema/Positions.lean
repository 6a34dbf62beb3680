import Conform.Proofs.Schema.Aliases
import Conform.Proofs.Schema.Matching

/-! Names as whole bodies of declarations and as inline expressions. The two are read with keywords
and declared names in different orders, which shows where a keyword is declared. -/

namespace Conform

/-- Whether two types get the same answers, what they are called aside. -/
structure Oracle.Alike {D : Type} (o : Oracle D) (a b : D) : Prop where
  is : ∀ tr, o.is a tr = o.is b tr
  unionMembers : o.unionMembers a = o.unionMembers b
  recordFields : o.recordFields a = o.recordFields b
  arrayElement : o.arrayElement a = o.arrayElement b
  literalValue : o.literalValue a = o.literalValue b

namespace Table

variable {types : Declarations} {t u : Table} {d d' : TypeId} {k k' : Keyword} {s : String}

theorem alike_self (d : TypeId) : t.oracle.Alike d d := ⟨fun _ => rfl, rfl, rfl, rfl, rfl⟩

theorem trait?_of_alike (h : t.oracle.Alike d d') :
    (t.shape d).trait? = (t.shape d').trait? := by
  rw [← trait?_oracle, ← trait?_oracle, Oracle.trait?, Oracle.trait?, funext h.is]

theorem alike_of_keywords (hd : t.shape d = .keyword k) (hd' : t.shape d' = .keyword k')
    (htr : (Shape.keyword k).trait? = (Shape.keyword k').trait?) : t.oracle.Alike d d' := by
  refine ⟨fun tr => ?_, ?_, ?_, ?_, ?_⟩
  · change ((t.shape d).trait? == some tr) = ((t.shape d').trait? == some tr)
    rw [hd, hd', htr]
  · change t.unionMembers d = t.unionMembers d'
    rw [unionMembers, unionMembers, hd, hd']
  · change t.recordFields d = t.recordFields d'
    rw [recordFields, recordFields, hd, hd']
  · change t.arrayElement d = t.arrayElement d'
    rw [arrayElement, arrayElement, hd, hd']
  · change t.literalValue d = t.literalValue d'
    rw [literalValue, literalValue, hd, hd']

theorem FormOf.of_trait? {f : Form} {a : Shape} (h : t.FormOf f a)
    (htr : a.trait? = (Shape.keyword k).trait?) : ∃ k', f = .keyword k' := by
  cases f with
  | keyword k' => exact ⟨k', rfl⟩
  | literal l =>
    obtain ⟨l', rfl, -⟩ := h
    cases l' <;> cases k <;> simp [Shape.trait?] at htr
  | _ =>
    obtain ⟨_, rfl, -⟩ := h
    cases k <;> simp [Shape.trait?] at htr

theorem Spells.alike_keyword {e : TypeExpr} (h : Declares types t) (hs : t.Spells e d')
    (hd : t.shape d = .keyword k) : t.oracle.Alike d d' ↔
      ∃ k', Reads types e (.keyword k') ∧ (Shape.keyword k').trait? = (Shape.keyword k).trait? := by
  constructor
  · intro ha
    obtain ⟨f, hr, hf⟩ := hs.reads h
    have htr : (t.shape d').trait? = (Shape.keyword k).trait? := by rw [← hd, trait?_of_alike ha]
    obtain ⟨k', rfl⟩ := hf.of_trait? htr
    refine ⟨k', hr, ?_⟩
    rw [← htr, show t.shape d' = .keyword k' from hf]
  · rintro ⟨k', hr, htr⟩
    exact alike_of_keywords hd (hs.formOf h hr) htr.symm

/-! ### Declared names -/

theorem shape_of_keyword {a : String} (hn : (Fields.names types).Nodup) (h : Declares types t)
    (ha : (a, .name s) ∈ types) (hk : Keyword.ofName? s = some k) (hl : t.lookup a = some d) :
    t.shape d = .keyword k := by
  have hr : Reads types (.name a) (.keyword k) := .body ((Fields.get?_eq_some_iff hn).2 ha) hk
  exact Spells.formOf h (.inl ⟨a, rfl, hl⟩) hr

theorem intern_of_lookup (hl : t.lookup s = some d) : t.intern (.name s) = (.ok d, t) := by
  simp only [intern, lower, hl, settle]

/-- A name is read as a body and as an expression. As a body it is the keyword of this name if
there is one, as an expression the declared type. The two get the same answers exactly if the
declared type, in the place of a keyword, is one that has the trait of this keyword; they are one
type exactly if the name is no keyword, or the declaration is the very one that it refers to. -/
theorem name_positions {a : String} (hn : (Fields.names types).Nodup)
    (h : ofDeclarations types = .ok t) (ha : (a, .name s) ∈ types) :
    ∃ d d' u, t.lookup a = some d ∧ t.intern (.name s) = (.ok d', u) ∧ t.Extends u ∧
      (u.oracle.Alike d d' ↔ ∀ k, Keyword.ofName? s = some k →
        ∃ k', Reads types (.name s) (.keyword k') ∧
          (Shape.keyword k').trait? = (Shape.keyword k).trait?) ∧
      ((Fields.get? s types).isSome →
        (t.lookup a = t.lookup s ↔ Keyword.ofName? s = none ∨ Refers types s a)) := by
  have hdecl := ofDeclarations_declares hn h
  have hget := (Fields.get?_eq_some_iff hn).2 ha
  obtain ⟨d, hd⟩ := Option.isSome_iff_exists.1 (hdecl.declared (n := a) (by rw [hget]; rfl))
  cases hk : Keyword.ofName? s with
  | none =>
    obtain ⟨d₁, hd₁, hs⟩ := lookup_alias hn h ha hk
    obtain rfl := Option.some.inj (hd.symm.trans hd₁)
    refine ⟨d, d, t, hd, intern_of_lookup hs, .refl t, ?_, fun _ => ?_⟩
    · simp [alike_self]
    · simp [hd, hs]
  | some k =>
    have hown : Refers types a a := .own hget (by simp [TypeExpr.isAlias, hk])
    obtain ⟨d', u, hi⟩ : Document.Interns t (.name s) :=
      (exists_intern_iff hdecl.lists).2 (.inr (by rw [hk]; rfl))
    obtain ⟨hu, hx, hs⟩ := intern_spec hdecl.tidy hi
    have hdu : u.shape d = .keyword k := by
      rw [Table.shape, hx.entry d (hdecl.tidy.names hd)]
      exact shape_of_keyword hn hdecl ha hk hd
    refine ⟨d, d', u, hd, hi, hx, ?_, fun _ => ?_⟩
    · rw [hs.alike_keyword (hdecl.extends hu hx) hdu]
      simp
    · rw [eq_comm, lookup_eq_iff hn h hown]
      simp

def words : Declarations :=
  [("Id", .name "string"), ("Key", .name "Id"), ("string", .name "Word"), ("Word", .name "string")]

/-- The declared type `string` is a string as well, and not the type `Id`. -/
theorem name_positions_words : (Fields.names words).Nodup ∧
    ∃ t, ofDeclarations words = .ok t ∧
      (∃ d d' u, t.lookup "Id" = some d ∧ t.intern (.name "string") = (.ok d', u) ∧
        u.oracle.Alike d d') ∧
      t.lookup "Id" ≠ t.lookup "string" ∧ t.lookup "Word" = t.lookup "string" ∧
      t.lookup "Key" = t.lookup "Id" := by
  have hn : (Fields.names words).Nodup := by decide
  obtain ⟨t, ht⟩ : ∃ t, ofDeclarations words = .ok t := exists_of_isOk (by decide +kernel)
  have hword : Refers words "string" "Word" :=
    .through rfl (by decide) (.own rfl (by decide))
  have hstring : Reads words (.name "string") (.keyword .string) :=
    .declared rfl (by decide) (.body rfl (by decide))
  obtain ⟨d, d', u, hd, hi, -, halike, hid⟩ :=
    name_positions hn ht (a := "Id") (s := "string") (by simp [words])
  obtain ⟨-, -, -, -, -, -, -, hself⟩ :=
    name_positions hn ht (a := "Word") (s := "string") (by simp [words])
  obtain ⟨-, -, -, -, -, -, -, hkey⟩ :=
    name_positions hn ht (a := "Key") (s := "Id") (by simp [words])
  refine ⟨hn, t, ht, ⟨d, d', u, hd, hi, halike.2 ?_⟩, ?_, ?_, ?_⟩
  · intro k hk
    obtain rfl : Keyword.string = k := Option.some.inj hk
    exact ⟨.string, hstring, rfl⟩
  · rw [Ne, hid rfl]
    rintro (hnone | hr)
    · exact absurd hnone (by decide)
    · exact absurd (hr.unique hword) (by decide)
  · exact (hself rfl).2 (.inr hword)
  · exact (hkey rfl).2 (.inl (by decide))

def misnomer : Declarations :=
  [("number", .name "string"), ("A", .name "number")]

/-- As a body the name is the keyword, and as an expression it is the declared type. -/
theorem misnomer_differs : (Fields.names misnomer).Nodup ∧
    ∃ t d d' u, ofDeclarations misnomer = .ok t ∧ t.lookup "A" = some d ∧
      t.intern (.name "number") = (.ok d', u) ∧ u.oracle.is d .number = true ∧
      u.oracle.is d' .number = false ∧ ¬ u.oracle.Alike d d' ∧
      t.lookup "A" ≠ t.lookup "number" := by
  obtain ⟨t, ht⟩ : ∃ t, ofDeclarations misnomer = .ok t := exists_of_isOk (by decide +kernel)
  have hids : ((ofDeclarations misnomer).toOption.map fun t =>
      (t.lookup "A", t.lookup "number", t.oracle.is 1 .number, t.oracle.is 0 .number)) =
        some (some 1, some 0, true, false) := by decide +kernel
  rw [ht] at hids
  obtain ⟨ha, hids⟩ := Prod.mk.inj (Option.some.inj hids)
  obtain ⟨hnumber, hids⟩ := Prod.mk.inj hids
  obtain ⟨hone, hzero⟩ := Prod.mk.inj hids
  refine ⟨by decide, t, 1, 0, t, ht, ha, intern_of_lookup hnumber, hone, hzero, ?_, ?_⟩
  · intro halike
    have := halike.is .number
    rw [hone, hzero] at this
    cases this
  · rw [ha, hnumber]
    decide

end Table

end Conform
