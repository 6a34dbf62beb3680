import Conform.Proofs.Builder.Valid
import Conform.Proofs.Schema.Meaning

/-! What the table of declarations says of an entry is what the expressions that it spells stand
for. -/

namespace Conform

namespace Table

variable {types : Declarations} {t t' : Table} {e : TypeExpr} {d l : TypeId}

theorem Declares.extends (h : Declares types t) (ht : t'.Tidy) (hx : t.Extends t') :
    Declares types t' := by
  have hlook : ∀ n, t'.lookup n = t.lookup n := hx.keeps.lookup
  refine ⟨ht, ?_, fun hd => by rw [hlook]; exact h.declared hd⟩
  intro n d hn
  rw [hlook] at hn
  have := h.denotes hn
  clear hn
  induction this with
  | own hd hea hn hb =>
    refine .own hd hea (by rw [hlook]; exact hn) ?_
    rw [shape, hx.entry _ (h.tidy.names hn)]
    exact hb.mono hx.keeps
  | through hd hk hn _ ih => exact .through hd hk (by rw [hlook]; exact hn) ih

/-- Whether a shape is that of a form. -/
def FormOf (t : Table) : Form → Shape → Prop
  | .keyword k, s => s = .keyword k
  | .literal l, s => ∃ l', s = .literal l' ∧ l'.same l
  | .array e, s => ∃ d, s = .array d ∧ t.Spells e d
  | .union es, s => ∃ ds, s = .union ds ∧ List.Forall₂ t.Spells es ds
  | .record fs, s => ∃ ds, s = .record ds ∧
      List.Forall₂ (fun f d => d.1 = f.1 ∧ t.Spells f.2 d.2) fs ds

/-- An expression that is no name stands for itself. -/
theorem Lowers.reads {s : Shape} (h : t.Lowers e s) (he : ∀ n, e ≠ .name n) :
    ∃ f, Reads types e f ∧ t.FormOf f s := by
  cases e with
  | name n => exact absurd rfl (he n)
  | literal value =>
    obtain ⟨l', rfl, hl⟩ := h
    exact ⟨_, .literal, l', rfl, hl⟩
  | bigint text =>
    obtain ⟨i, hi, rfl⟩ := h
    exact ⟨_, .bigint hi, _, rfl, Literal.same_iff.2 rfl⟩
  | array element =>
    obtain ⟨d, rfl, hd⟩ := h
    exact ⟨_, .array, d, rfl, hd⟩
  | union members =>
    obtain ⟨ds, rfl, hds⟩ := h
    exact ⟨_, .union, ds, rfl, lowersAll_iff.1 hds⟩
  | record fields =>
    obtain ⟨ds, rfl, hds⟩ := h
    exact ⟨_, .record, ds, rfl, lowersFields_iff.1 hds⟩

theorem Denotes.reads {n : String} (h : Denotes types t n d) :
    ∃ f, Reads types (.name n) f ∧ t.FormOf f (t.shape d) := by
  induction h with
  | @own n e d hd hea hn hb =>
    unfold BodyOf at hb
    cases hk : e.keyword? with
    | some k =>
      rw [hk] at hb
      exact ⟨_, .body hd hk, hb⟩
    | none =>
      rw [hk] at hb
      have hname : ∀ m, e ≠ .name m := by
        rintro m rfl
        rw [TypeExpr.keyword?] at hk
        simp [TypeExpr.isAlias, hk] at hea
      obtain ⟨f, hr, hf⟩ : ∃ f, Reads types e f ∧ t.FormOf f (t.shape d) := hb.reads hname
      exact ⟨f, .declared hd hk hr, hf⟩
  | through hd hk hn _ ih =>
    obtain ⟨f, hr, hf⟩ := ih
    exact ⟨f, .declared hd hk hr, hf⟩

theorem Spells.reads (h : Declares types t) (hs : t.Spells e d) :
    ∃ f, Reads types e f ∧ t.FormOf f (t.shape d) := by
  rcases hs with ⟨n, rfl, hn⟩ | ⟨s, hs, hl⟩
  · exact (h.denotes hn).reads
  · have hshape : t.shape d = s := shape_eq hs
    rw [hshape]
    cases e with
    | name n =>
      obtain ⟨hn, k, hk, rfl⟩ := hl
      have hd : Fields.get? n types = none := by
        by_contra hd
        have := h.declared (Option.isSome_iff_ne_none.2 hd)
        rw [hn] at this
        cases this
      exact ⟨_, .keyword hd hk, rfl⟩
    | _ => exact hl.reads fun n hn => nomatch hn

/-- An expression that stands for a form is spelled by entries of that form. -/
theorem Spells.formOf (h : Declares types t) (hs : t.Spells e d) {f : Form}
    (hr : Reads types e f) : t.FormOf f (t.shape d) := by
  obtain ⟨f', hr', hf⟩ := hs.reads h
  rwa [hr.unique hr']

/-! ### Answers -/

theorem trait?_oracle (t : Table) (d : TypeId) : t.oracle.trait? d = (t.shape d).trait? := by
  unfold Oracle.trait? oracle
  dsimp only
  cases ht : (t.shape d).trait? with
  | none => simp
  | some tr =>
    have hmem := tr.mem_all
    simp only [Option.some_beq_some]
    cases tr <;> rfl

end Table

namespace Shape

variable {s : Shape} {tr : Trait}

theorem trait?_eq_union : s.trait? = some .union ↔ s.isUnion := by
  cases s with
  | keyword k => cases k <;> simp [trait?, isUnion]
  | literal l => cases l <;> simp [trait?, isUnion]
  | _ => simp [trait?, isUnion]

theorem keyword_of_trait? {kind : NodeKind} (h : s.trait? = some tr) (hk : tr.kind? = some kind) :
    ∃ k, s = .keyword k := by
  cases s with
  | keyword k => exact ⟨k, rfl⟩
  | literal l =>
    cases l <;> simp only [trait?, Option.some.injEq] at h <;> subst h <;> simp [Trait.kind?] at hk
  | _ =>
    simp only [trait?, reduceCtorEq, Option.some.injEq] at h <;> subst h <;>
      simp [Trait.kind?] at hk

theorem literal_of_trait? (h : s.trait? = some tr) (hl : tr.isLiteral) :
    ∃ l, s = .literal l := by
  cases s with
  | literal l => exact ⟨l, rfl⟩
  | keyword k =>
    cases k <;> simp only [trait?, reduceCtorEq, Option.some.injEq] at h <;> subst h <;> cases hl
  | _ => simp only [trait?, reduceCtorEq, Option.some.injEq] at h <;> subst h <;> cases hl

theorem record_of_trait? (h : s.trait? = some .record) : ∃ ds, s = .record ds := by
  cases s with
  | record ds => exact ⟨ds, rfl⟩
  | keyword k => cases k <;> simp [trait?] at h
  | literal l => cases l <;> simp [trait?] at h
  | _ => simp [trait?] at h

theorem exists_of_isUnion (h : s.isUnion) : ∃ ds, s = .union ds := by
  cases s with
  | union ds => exact ⟨ds, rfl⟩
  | _ => cases h

end Shape

namespace Table

variable {types : Declarations} {t t' : Table} {e : TypeExpr} {d l : TypeId}

theorem isUnion_oracle : IsUnion t.oracle [] d ↔ (t.shape d).isUnion := by
  rw [IsUnion, trait?_oracle, Shape.trait?_eq_union]
  simp [hook?]

theorem mem_unionMembers {m : TypeId} {ds : List TypeId} (h : t.shape d = .union ds) :
    m ∈ t.oracle.unionMembers d ↔ m ∈ ds := by
  change m ∈ t.unionMembers d ↔ m ∈ ds
  rw [unionMembers, h]

theorem arrayElement_eq {element : TypeId} :
    t.oracle.arrayElement d = some element ↔ t.shape d = .array element := by
  change t.arrayElement d = some element ↔ _
  unfold arrayElement
  split <;> simp_all

theorem mem_recordFields {ds : List (String × TypeId)} (h : t.shape d = .record ds)
    {c : String × TypeId} : c ∈ t.oracle.recordFields d ↔ c ∈ ds := by
  change c ∈ t.recordFields d ↔ c ∈ ds
  rw [recordFields, h]

/-! ### Forms by shapes -/

section

variable {f : Form}

theorem FormOf.keyword {k : Keyword} (h : t.FormOf f (.keyword k)) : f = .keyword k := by
  cases f with
  | keyword k' =>
    cases h
    rfl
  | _ =>
    obtain ⟨_, hs, -⟩ := h
    cases hs

theorem FormOf.literal {l : Literal} (h : t.FormOf f (.literal l)) :
    ∃ l', f = .literal l' ∧ l.same l' := by
  cases f with
  | literal l' =>
    obtain ⟨_, hs, hl⟩ := h
    cases hs
    exact ⟨l', rfl, hl⟩
  | keyword k => cases h
  | _ =>
    obtain ⟨_, hs, -⟩ := h
    cases hs

theorem FormOf.array (h : t.FormOf f (.array d)) : ∃ e, f = .array e ∧ t.Spells e d := by
  cases f with
  | array e =>
    obtain ⟨_, hs, he⟩ := h
    cases hs
    exact ⟨e, rfl, he⟩
  | keyword k => cases h
  | _ =>
    obtain ⟨_, hs, -⟩ := h
    cases hs

theorem FormOf.union {ds : List TypeId} (h : t.FormOf f (.union ds)) :
    ∃ es, f = .union es ∧ List.Forall₂ t.Spells es ds := by
  cases f with
  | union es =>
    obtain ⟨_, hs, hes⟩ := h
    cases hs
    exact ⟨es, rfl, hes⟩
  | keyword k => cases h
  | _ =>
    obtain ⟨_, hs, -⟩ := h
    cases hs

theorem FormOf.record {ds : List (String × TypeId)} (h : t.FormOf f (.record ds)) :
    ∃ fs, f = .record fs ∧ List.Forall₂ (fun f d => d.1 = f.1 ∧ t.Spells f.2 d.2) fs ds := by
  cases f with
  | record fs =>
    obtain ⟨_, hs, hfs⟩ := h
    cases hs
    exact ⟨fs, rfl, hfs⟩
  | keyword k => cases h
  | _ =>
    obtain ⟨_, hs, -⟩ := h
    cases hs

theorem FormOf.isUnion {s : Shape} (h : t.FormOf f s) : f.isUnion = s.isUnion := by
  cases f with
  | keyword k =>
    obtain rfl := h
    rfl
  | _ =>
    obtain ⟨_, rfl, -⟩ := h
    rfl

end

/-! ### Leaves and parts -/

/-- The leaves of an entry are those of the parts of what it spells. -/
theorem Spells.part (h : Declares types t) (hs : t.Spells e d) (hl : Leaf t.oracle [] d l) :
    ∃ f, Part types e f ∧ t.FormOf f (t.shape l) := by
  induction hl generalizing e with
  | self hu =>
    obtain ⟨f, hr, hf⟩ := hs.reads h
    refine ⟨f, .self hr ?_, hf⟩
    rw [hf.isUnion, Bool.eq_false_iff]
    exact fun hdu => hu (isUnion_oracle.2 hdu)
  | member hu hm _ ih =>
    obtain ⟨f, hr, hf⟩ := hs.reads h
    obtain ⟨ds, hds⟩ := Shape.exists_of_isUnion (isUnion_oracle.1 hu)
    rw [hds] at hf
    obtain ⟨es, rfl, hes⟩ := hf.union
    obtain ⟨e', he', hm'⟩ := exists_of_mem_right hes ((mem_unionMembers hds).1 hm)
    obtain ⟨f, hp, hf⟩ := ih hm'
    exact ⟨f, .member hr he' hp, hf⟩

/-- What an expression comes apart into is what the leaves of its entry are. -/
theorem Spells.leaf (h : Declares types t) (hs : t.Spells e d) {f : Form} (hp : Part types e f) :
    ∃ l, Leaf t.oracle [] d l ∧ t.FormOf f (t.shape l) := by
  induction hp generalizing d with
  | self hr hu =>
    have hf := hs.formOf h hr
    refine ⟨d, .self fun hdu => ?_, hf⟩
    rw [hf.isUnion, isUnion_oracle.1 hdu] at hu
    cases hu
  | member hr hm _ ih =>
    obtain ⟨ds, hds, hes⟩ := hs.formOf h hr
    obtain ⟨m, hmem, hsm⟩ := exists_of_mem_left hes hm
    obtain ⟨l, hl, hf⟩ := ih hsm
    refine ⟨l, .member (isUnion_oracle.2 (by rw [hds]; rfl)) ((mem_unionMembers hds).2 hmem) hl, hf⟩

end Table

end Conform
