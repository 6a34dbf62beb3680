import Mathlib.Data.List.Sort
import Conform.Proofs.Builder.Endless
import Conform.Proofs.Builder.Numbering
import Conform.Proofs.Document.Graph

/-! The record checks of a document: one for each record type that its requests lead to, in the
order in which a depth-first walk meets them, and none that is called is missing. -/

namespace Conform

namespace Program

variable {p : Program} {n : Nat}

theorem record_of_getElem? (h : p.recordChecks.map (·.record) = List.range n) {i : Nat}
    {c : RecordCheck} (hc : p.recordChecks[i]? = some c) : c.record = i := by
  have hmap : (List.range n)[i]? = some c.record := by
    rw [← h, List.getElem?_map, hc]
    rfl
  obtain ⟨hlt, hget⟩ := List.getElem?_eq_some_iff.1 hmap
  rw [← hget, List.getElem_range]

theorem recordCheck?_eq_getElem? (h : p.recordChecks.map (·.record) = List.range n)
    {r : RecordId} (hr : r < n) : p.recordCheck? r = p.recordChecks[r]? := by
  obtain ⟨c, hc⟩ := Option.isSome_iff_exists.1
    (recordCheck?_isSome (h ▸ List.mem_range.2 hr : r ∈ p.recordChecks.map (·.record)))
  obtain ⟨hmem, hrecord⟩ := mem_of_recordCheck? hc
  obtain ⟨i, hi⟩ := List.mem_iff_getElem?.1 hmem
  obtain rfl := (record_of_getElem? h hi).symm.trans hrecord
  rw [hc, hi]

end Program

namespace Builder

variable {D : Type} [DecidableEq D] {o : Oracle D} {hooks : List (Hook D)} {b : Builder D} {d : D}
  {id : NodeId}

theorem Valid.recordCheck (h : b.Valid o hooks []) {p : Program} {roots : List Model.Root}
    (hp : b.finish.Programs roots p) {root : Model.Root} (hroot : root ∈ roots)
    (hd : (d, root.node) ∈ b.known) {c : D} (hr : Reaches o hooks d c) {r : RecordId}
    {members : List (String × NodeId)} (hc : (c, id) ∈ b.known)
    (hk : b.kind id = .record r members) : (p.recordCheck? r).isSome := by
  obtain ⟨u, x, hux, hbuilt, hleaves⟩ := h.exists_built hp hroot hd hr
  have hself : Leaf o hooks c c := .self ((h.suits hc).not_isUnion (by simp [hk]))
  obtain ⟨hh, ht, -⟩ := h.of_record hc List.not_mem_nil hk
  obtain ⟨y, r', members', hy, hk', hpart, -⟩ := h.exists_record_part hux (hleaves c hself) hh ht
  obtain rfl := h.node_unique hc hy
  cases hk.symm.trans hk'
  exact hbuilt.recordCheck h.flat hpart

end Builder

namespace Document

variable {doc : Document} {r : Resolved} {roots : List Model.Root} {b : Builder TypeId}
  {p : Program}

/-- The types of a document are met in the order of a walk through its requests, and its records
are numbered in that order. -/
theorem Compiles.numbered (h : doc.Compiles r roots b p) :
    b.Numbered r.table.oracle r.hooks ∧
      Meets r.table.oracle r.hooks [] (r.requests.map (·.root)) b.order :=
  (Builder.resolveRoots_runs Builder.valid_empty h.rooted).numbered .empty

theorem Compiles.recordChecks (h : doc.Compiles r roots b p) :
    p.recordChecks.map (·.record) =
      List.range (b.records r.table.oracle r.hooks).length := by
  obtain ⟨hvalid, hroots⟩ := h.advances
  obtain ⟨hn, hmeets⟩ := h.numbered
  refine List.Pairwise.eq_of_mem_iff h.programs.sorted List.pairwise_lt_range fun n => ?_
  rw [List.mem_range]
  constructor
  · intro hmem
    obtain ⟨id, members, hk⟩ := h.programs.records n hmem
    rw [← hn.count]
    exact hvalid.counted hk
  · intro hlt
    have hplace := List.getElem?_eq_getElem hlt
    obtain ⟨id, members, hd, hk⟩ := (hn.iff hvalid).1 hplace
    obtain ⟨e, he, hreach⟩ := hmeets.mem_iff.1 (Builder.mem_order.2 ⟨id, hd⟩)
    obtain ⟨q, hq, rfl⟩ := List.mem_map.1 he
    obtain ⟨root, hroot, -, -, hknown⟩ := exists_of_mem_left hroots hq
    obtain ⟨c, hc⟩ := Option.isSome_iff_exists.1
      (hvalid.recordCheck h.programs hroot hknown hreach hd hk)
    obtain ⟨hmem, hrecord⟩ := Program.mem_of_recordCheck? hc
    exact List.mem_map.2 ⟨c, hmem, hrecord⟩

theorem Compiles.recordCheck?_self (h : doc.Compiles r roots b p) {c : RecordCheck}
    (hc : c ∈ p.recordChecks) : c.record < (b.records r.table.oracle r.hooks).length ∧
      p.recordCheck? c.record = some c := by
  have hlt : c.record < (b.records r.table.oracle r.hooks).length := by
    rw [← List.mem_range, ← h.recordChecks]
    exact List.mem_map_of_mem hc
  obtain ⟨i, hi⟩ := List.mem_iff_getElem?.1 hc
  refine ⟨hlt, ?_⟩
  rw [Program.recordCheck?_eq_getElem? h.recordChecks hlt,
    Program.record_of_getElem? h.recordChecks hi, hi]

theorem Compiles.calls_lt (h : doc.Compiles r roots b p) {n : RecordId}
    (hn : (∃ v ∈ p.validators, n ∈ allCalls v.body) ∨
      ∃ c ∈ p.recordChecks, n ∈ allCalls c.body) :
    n < (b.records r.table.oracle r.hooks).length := by
  have hsome : (p.recordCheck? n).isSome := by
    rcases hn with ⟨v, hv, hn⟩ | ⟨c, hc, hn⟩
    · exact h.programs.calls v hv n hn
    · exact (h.programs.covers c.record c (h.recordCheck?_self hc).2).2 n hn
  obtain ⟨c, hc⟩ := Option.isSome_iff_exists.1 hsome
  obtain ⟨hmem, rfl⟩ := Program.mem_of_recordCheck? hc
  exact (h.recordCheck?_self hmem).1

/-- What the record checks of a program have to do with the types that its requests lead to, which
`met` lists in the order of a depth-first walk. -/
structure ChecksRecords (r : Resolved) (b : Builder TypeId) (p : Program) (met : List TypeId) :
    Prop where
  walk : Meets r.table.oracle r.hooks [] (r.requests.map (·.root)) met
  once : met.Nodup
  reached : ∀ d, d ∈ met ↔ ∃ q ∈ r.requests, Reaches r.table.oracle r.hooks q.root d
  /-- There is one record check for each record that is met, numbered from zero on. -/
  numbers : p.recordChecks.map (·.record) =
    List.range (met.filter (IsRecord r.table.oracle r.hooks ·)).length
  /-- The number of a record is its place among the records that are met. -/
  places : ∀ n d, (met.filter (IsRecord r.table.oracle r.hooks ·))[n]? = some d ↔
    ∃ id members, (d, id) ∈ b.known ∧ b.kind id = .record n members
  bodies : ∀ c ∈ p.recordChecks, ∃ members, b.finish.recordMembers? c.record = some members ∧
    b.finish.fieldStmts members = .ok c.body
  /-- What is called is found at the place of its number. -/
  calls : ∀ n, ((∃ v ∈ p.validators, n ∈ allCalls v.body) ∨
      ∃ c ∈ p.recordChecks, n ∈ allCalls c.body) →
    n < (met.filter (IsRecord r.table.oracle r.hooks ·)).length ∧
      (p.recordCheck? n).isSome ∧ p.recordCheck? n = p.recordChecks[n]?

/-- A document that compiles has one record check for each record that its requests lead to
without passing a type that has a conversion, and all that are called. -/
theorem recordChecks_dense (doc : Document) (p : Program) (h : doc.compile = .ok p) :
    ∃ r roots b met, doc.Compiles r roots b p ∧ ChecksRecords r b p met := by
  obtain ⟨r, roots, b, h⟩ := compile_eq_ok.1 h
  obtain ⟨hn, hmeets⟩ := h.numbered
  refine ⟨r, roots, b, b.order, h, hmeets, hmeets.nodup List.nodup_nil, fun d => ?_,
    h.recordChecks, fun n d => hn.iff h.advances.1,
    fun c hc => (h.programs.covers c.record c (h.recordCheck?_self hc).2).1, fun n hcalled => ?_⟩
  · rw [hmeets.mem_iff]
    simp
  · have hlt := h.calls_lt hcalled
    have hplace := Program.recordCheck?_eq_getElem? h.recordChecks hlt
    refine ⟨hlt, ?_, hplace⟩
    have hlen : n < p.recordChecks.length := by
      have := congrArg List.length h.recordChecks
      rw [List.length_map, List.length_range] at this
      rwa [this]
    rw [hplace, List.getElem?_eq_getElem hlen]
    rfl

/-- People with friends and addresses, of which some are secret: those are left to a conversion. -/
def people : Document :=
  { empty with
    types := [("Address", .record [("street", .name "string")]),
      ("Person", .record [("home", .union [.name "Address", .name "Secret"]),
        ("friends", .array (.name "Person"))]),
      ("Secret", .record [("key", .record [])])]
    conversions := [⟨.name "Secret", "return unseal(value);", none⟩]
    generate := [⟨"parseAll", .array (.union [.name "Person", .name "Address"])⟩,
      ⟨"parseAddress", .name "Address"⟩] }

theorem recordChecks_dense_people : ∃ p, people.compile = .ok p ∧
    ∃ r roots b met, people.Compiles r roots b p ∧ ChecksRecords r b p met := by
  obtain ⟨p, hp⟩ : ∃ p, people.compile = .ok p := exists_of_isOk (by decide +kernel)
  exact ⟨p, hp, recordChecks_dense people p hp⟩

end Document

end Conform
