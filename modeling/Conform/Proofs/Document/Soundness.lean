import Conform.Proofs.Builder.Meaning
import Conform.Proofs.Document.Entries

/-! What a validator gives back is of the type that it was generated for, exactly where nothing
that values are checked against is hollow: a union that has no members, or only such unions, has
no values and is accepted with any. -/

namespace Conform

theorem Keyword.holds_of_admits {k : Keyword} {t : Trait} {kind : NodeKind} {v : Value}
    (ht : (Shape.keyword k).trait? = some t) (hk : t.kind? = some kind)
    (hv : kind = .any ∨ kind.admits v) : k.Holds v := by
  cases k <;> simp only [Shape.trait?, reduceCtorEq, Option.some.injEq] at ht <;> subst ht <;>
    simp only [Trait.kind?, Option.some.injEq] at hk <;> subst hk <;>
    simp_all [Keyword.Holds, NodeKind.admits]

namespace Table

variable {types : Declarations} {t : Table} {e : TypeExpr} {d : TypeId} {v : Value}

theorem Spells.inhabits (h : Declares types t) (hs : t.Spells e d) (hv : t.oracle.Means d v) :
    Inhabits types e v := by
  induction hv generalizing e with
  | simple ht hk hadm =>
    rw [trait?_oracle] at ht
    obtain ⟨f, hr, hf⟩ := hs.reads h
    obtain ⟨k, hshape⟩ := Shape.keyword_of_trait? ht hk
    rw [hshape] at ht hf
    obtain rfl := hf.keyword
    exact .keyword hr (Keyword.holds_of_admits ht hk hadm)
  | @literal d t' l v ht hl hlv hv =>
    rw [trait?_oracle] at ht
    obtain ⟨f, hr, hf⟩ := hs.reads h
    obtain ⟨l', hshape⟩ := Shape.literal_of_trait? ht hl
    have hlv : t.literalValue d = some l := hlv
    rw [literalValue, hshape] at hlv
    cases hlv
    rw [hshape] at hf
    obtain ⟨l', rfl, hsame⟩ := hf.literal
    exact .literal hr (by rwa [← Value.strictEq_of_same hsame])
  | array ht he _ ih =>
    obtain ⟨f, hr, hf⟩ := hs.reads h
    rw [arrayElement_eq.1 he] at hf
    obtain ⟨element, rfl, hse⟩ := hf.array
    exact .array hr fun u hu => ih u hu hse
  | union ht hm _ ih =>
    rw [trait?_oracle] at ht
    obtain ⟨f, hr, hf⟩ := hs.reads h
    obtain ⟨ds, hshape⟩ := Shape.exists_of_isUnion (Shape.trait?_eq_union.1 ht)
    rw [hshape] at hf
    obtain ⟨es, rfl, hes⟩ := hf.union
    obtain ⟨e', he', hse⟩ := exists_of_mem_right hes ((mem_unionMembers hshape).1 hm)
    exact .union hr he' (ih hse)
  | record ht hnull htag _ ih =>
    rw [trait?_oracle] at ht
    obtain ⟨f, hr, hf⟩ := hs.reads h
    obtain ⟨ds, hshape⟩ := Shape.record_of_trait? ht
    rw [hshape] at hf
    obtain ⟨fs, rfl, hall⟩ := hf.record
    refine .record hr hnull htag fun g hg => ?_
    obtain ⟨c, hc, hname, hsc⟩ := exists_of_mem_left hall hg
    rw [← hname]
    exact ih c ((mem_recordFields hshape).2 hc) hsc

/-- Where no expression that is reached is hollow, something is left of every type that one of
them spells. -/
theorem Declares.solid (h : Declares types t) {es : List TypeExpr}
    (hsolid : ∀ e, Reached types es e → ¬ Hollow types e) :
    Solid t.oracle fun d => ∃ e, Reached types es e ∧ t.Spells e d := by
  refine ⟨?_, ?_, ?_⟩
  · rintro d ⟨e, he, hs⟩
    obtain ⟨f, hp⟩ : ∃ f, Part types e f := by
      by_contra hn
      exact hsolid e he fun f hp => hn ⟨f, hp⟩
    obtain ⟨l, hl, -⟩ := hs.leaf h hp
    exact ⟨l, hl⟩
  · rintro d l element ⟨e, he, hs⟩ hl - hel
    obtain ⟨f, hp, hf⟩ := hs.part h hl
    rw [arrayElement_eq.1 hel] at hf
    obtain ⟨e', rfl, hse⟩ := hf.array
    exact ⟨e', .element he hp, hse⟩
  · rintro d l c ⟨e, he, hs⟩ hl ht hc
    obtain ⟨f, hp, hf⟩ := hs.part h hl
    rw [trait?_oracle] at ht
    obtain ⟨ds, hshape⟩ := Shape.record_of_trait? ht
    rw [hshape] at hf
    obtain ⟨fs, rfl, hall⟩ := hf.record
    obtain ⟨g, hg, -, hsg⟩ := exists_of_mem_right hall ((mem_recordFields hshape).1 hc)
    exact ⟨g.2, .field he hp hg, hsg⟩

end Table

namespace Document

/-- Whether values are checked against an expression somewhere in what a document generates. -/
def Place (doc : Document) (e : TypeExpr) : Prop :=
  Reached doc.types (doc.generate.map (·.type)) e

/-- Whether what each validator gives back is what it was given, and of the type that the
validator was generated for. -/
def Sound (doc : Document) : Prop :=
  ∀ p, doc.compile = .ok p → ∀ g ∈ doc.generate, ∀ ts v w, p.validate ts g.name v = .ok w →
    w = v ∧ Inhabits doc.types g.type v

section

variable {doc : Document} {r : Resolved} {roots : List Model.Root} {b : Builder TypeId}
  {p : Program}

theorem Compiles.exists_root (h : doc.Compiles r roots b p) (hs : doc.Stands r)
    {g : GenerateSpec} (hg : g ∈ doc.generate) :
    ∃ root ∈ roots, ∃ d, root.name = g.name ∧ r.table.Spells g.type d ∧
      (d, root.node) ∈ b.known := by
  obtain ⟨q, hq, hname, hsq⟩ := exists_of_mem_left hs.requests hg
  obtain ⟨root, hroot, hrn, -, hknown⟩ := exists_of_mem_left h.advances.2 hq
  exact ⟨root, hroot, q.root, hrn.trans hname, hsq, hknown⟩

theorem sound_of_solid (hc : doc.conversions = []) (hn : (Fields.names doc.types).Nodup)
    (hsolid : ∀ e, doc.Place e → ¬ Hollow doc.types e) : doc.Sound := by
  intro p hp g hg ts v w hv
  obtain ⟨r, roots, b, h⟩ := compile_eq_ok.1 hp
  have hs := resolve_stands hn h.resolved
  obtain ⟨root, hroot, d, hname, hsd, hknown⟩ := h.exists_root hs hg
  rw [← hname, h.validate hc hroot] at hv
  obtain ⟨⟨⟩, hcheck, rfl⟩ := map_eq_ok.1 hv
  have hvalid := h.advances.1
  rw [h.hooks_nil hc] at hvalid
  refine ⟨rfl, hsd.inhabits hs.declares ?_⟩
  exact hvalid.check_means (hs.declares.solid hsolid)
    ⟨g.type, .root (List.mem_map_of_mem hg), hsd⟩ hknown hcheck

end

end Document

end Conform
