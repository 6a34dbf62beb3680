import Conform.Proofs.Builder.Competing
import Conform.Proofs.Document.Conversions

/-! Conversions that compete are reported: two that are of one type wherever they are, and two in
one union that a validator leads to. -/

namespace Conform.Document

/-- What is reported of the conversions of a document. -/
structure ReportsConversions (doc : Document) (r : Resolved) : Prop where
  /-- The types of conversions get their entries one after another, behind those of requests. -/
  targets : ∃ t t', doc.table = .ok t ∧ internRequests t [] doc.generate = .ok (r.requests, t') ∧
    t'.internAll (doc.conversions.map (·.type)) = (.ok (r.hooks.map (·.result)), r.table)
  numbers : r.hooks.map (·.conversion) = List.range' 1 doc.conversions.length
  sameTarget : (∃ name m n, doc.compile = .error (.compile (.sameTarget name m n))) ↔
    ∃ i j d, Repeats (r.hooks.map (·.result)) i j d
  /-- The error names such a type and the numbers of two conversions that it has. -/
  target : ∀ name m n, doc.compile = .error (.compile (.sameTarget name m n)) →
    ∃ i j d, Repeats (r.hooks.map (·.result)) i j d ∧ name = r.table.typeName d ∧ m = i + 1 ∧
      n = j + 1
  competing : (∃ q ∈ r.requests, ∃ u, Reaches r.table.oracle r.hooks q.root u ∧
    Competing r.table.oracle r.hooks u) → ∀ p, doc.compile ≠ .ok p
  /-- The error names such a union. -/
  inUnion : ∀ name, doc.compile = .error (.compile (.inUnion name)) →
    ∃ q ∈ r.requests, ∃ u, Reaches r.table.oracle r.hooks q.root u ∧
      Competing r.table.oracle r.hooks u ∧ name = r.table.typeName u

theorem internHooks_internAll {t u : Table} {number : ConversionId} {cs : List ConversionSpec}
    {hooks : List (Hook TypeId)} (h : internHooks t number cs = .ok (hooks, u)) :
    t.internAll (cs.map (·.type)) = (.ok (hooks.map (·.result)), u) := by
  induction cs generalizing t number hooks with
  | nil =>
    cases h
    rfl
  | cons c cs ih =>
    obtain ⟨d, t₁, rest, hd, hrest, rfl⟩ := internHooks_cons_eq_ok.1 h
    have hd : Table.settle (t.lower c.type) = (.ok d, t₁) := hd
    rw [List.map_cons, Table.internAll, hd]
    simp only [ih hrest, List.map_cons]

theorem conversion_of_numbers {hooks : List (Hook TypeId)} {count i : Nat} {k : Hook TypeId}
    (h : hooks.map (·.conversion) = List.range' 1 count) (hk : hooks[i]? = some k) :
    k.conversion = i + 1 := by
  have hi : (List.range' 1 count)[i]? = some k.conversion := by
    rw [← h, List.getElem?_map, hk]
    rfl
  obtain ⟨hlt, hi⟩ := List.getElem?_eq_some_iff.1 hi
  rw [← hi, List.getElem_range']
  omega

section

variable {doc : Document} {r : Resolved}

theorem compile_of_resolve (h : doc.resolve = .ok r) :
    doc.compile = (Conform.compile r.table.oracle r.requests r.hooks).mapError .compile := by
  rw [compile, h]
  rfl

theorem compile_eq_compile_error (h : doc.resolve = .ok r) {e : CompileError} :
    doc.compile = .error (.compile e) ↔
      Conform.compile r.table.oracle r.requests r.hooks = .error e := by
  rw [compile_of_resolve h, mapError_eq_error]
  simp

theorem exists_of_sameTarget (h : doc.resolve = .ok r) {name : String} {m n : ConversionId}
    (he : doc.compile = .error (.compile (.sameTarget name m n))) :
    ∃ i j d, Repeats (r.hooks.map (·.result)) i j d ∧ name = r.table.typeName d ∧ m = i + 1 ∧
      n = j + 1 := by
  obtain ⟨t, t', -, -, hhooks⟩ := resolve_eq_ok.1 h
  have hnumbers := (internHooks_numbers hhooks).1
  obtain ⟨i, j, k, k', hlt, hi, hj, hsame, hname, rfl, rfl⟩ :=
    hooks_of_sameTarget ((compile_eq_compile_error h).1 he)
  refine ⟨i, j, k.result, ⟨hlt, ?_, ?_⟩, hname, conversion_of_numbers hnumbers hi,
    conversion_of_numbers hnumbers hj⟩
  · rw [List.getElem?_map, hi]
    rfl
  · rw [List.getElem?_map, hj, hsame]
    rfl

end

/-- Two conversions of one type are reported whether or not a validator comes to that type, a union
with two conversions that a validator leads to never compiles, and only such a union is reported as
one. -/
theorem conversions_reported (doc : Document) (r : Resolved) (h : doc.resolve = .ok r) :
    doc.ReportsConversions r := by
  obtain ⟨t, t', ht, hreq, hhooks⟩ := resolve_eq_ok.1 h
  have hnumbers := (internHooks_numbers hhooks).1
  exact {
    targets := ⟨t, t', ht, hreq, internHooks_internAll hhooks⟩
    numbers := hnumbers
    sameTarget := by
      simp only [compile_eq_compile_error h]
      refine ⟨?_, fun ⟨i, j, d, hrep⟩ => exists_sameTarget hrep⟩
      rintro ⟨name, m, n, he⟩
      obtain ⟨i, j, d, hrep, -⟩ := exists_of_sameTarget h ((compile_eq_compile_error h).2 he)
      exact ⟨i, j, d, hrep⟩
    target := fun name m n he => exists_of_sameTarget h he
    competing := by
      rintro ⟨q, hq, u, hr, hu⟩ p hp
      rw [compile_of_resolve h, mapError_eq_ok] at hp
      exact not_competing_of_compile hp hq hr hu
    inUnion := by
      intro name he
      refine competing_of_inUnion ?_ ((compile_eq_compile_error h).1 he)
      rw [hnumbers]
      exact List.nodup_range' }

/-- Days and patterns, each with a conversion. A union of both has one as a part of another union,
and days have a second name. -/
def rivals : Document :=
  { empty with
    types := [("Date", .record [("getTime", .name "number")]), ("Day", .name "Date"),
      ("Pattern", .record [("source", .name "string")]),
      ("Moment", .union [.name "Day", .name "number"])]
    conversions := [⟨.name "Date", "return new Date(value)", none⟩,
      ⟨.name "Pattern", "return new RegExp(value)", none⟩]
    generate := [⟨"parseAll", .array (.union [.name "Moment", .name "Pattern", .name "Date"])⟩] }

def doubled : Document :=
  { rivals with
    conversions := rivals.conversions ++ [⟨.name "Day", "return value", none⟩]
    generate := [] }

theorem conversions_reported_rivals :
    (∃ r, rivals.resolve = .ok r ∧ (∀ p, rivals.compile ≠ .ok p) ∧
      ∃ q ∈ r.requests, ∃ u, Reaches r.table.oracle r.hooks q.root u ∧
        Competing r.table.oracle r.hooks u ∧ r.table.typeName u = "Moment | Pattern | Date") ∧
    ∃ r, doubled.resolve = .ok r ∧ ∃ d, Repeats (r.hooks.map (·.result)) 0 2 d ∧
      r.table.typeName d = "Date" := by
  constructor
  · obtain ⟨r, hr⟩ : ∃ r, rivals.resolve = .ok r := exists_of_isOk (by decide +kernel)
    have hreports := conversions_reported rivals r hr
    have herror : rivals.compile = .error (.compile (.inUnion "Moment | Pattern | Date")) :=
      eq_error_of_match (by decide +kernel)
    obtain ⟨q, hq, u, hreach, hu, hname⟩ := hreports.inUnion _ herror
    exact ⟨r, hr, hreports.competing ⟨q, hq, u, hreach, hu⟩, q, hq, u, hreach, hu, hname.symm⟩
  · obtain ⟨r, hr⟩ : ∃ r, doubled.resolve = .ok r := exists_of_isOk (by decide +kernel)
    have herror : doubled.compile = .error (.compile (.sameTarget "Date" 1 3)) :=
      eq_error_of_match (by decide +kernel)
    obtain ⟨i, j, d, hrep, hname, hm, hn⟩ :=
      (conversions_reported doubled r hr).target _ _ _ herror
    obtain rfl := Nat.succ.inj hm
    obtain rfl := Nat.succ.inj hn
    exact ⟨r, hr, d, hrep, hname.symm⟩

end Conform.Document
