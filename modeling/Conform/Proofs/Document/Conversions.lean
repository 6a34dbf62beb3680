import Conform.Proofs.Builder.Conversions
import Conform.Proofs.Builder.Mirroring
import Conform.Proofs.Document.Entries
import Conform.Proofs.Document.RecordChecks

/-! The conversions of a document have their numbers everywhere: among the routines of its program,
in the statements that call them, and among the transforms of those that are built in. -/

namespace Conform

/-! ### Transforms -/

namespace Transforms

theorem get?_insert (ts : Transforms) (m n : ConversionId) (t : Transform) :
    (ts.insert m t).get? n = if n = m then some t else ts.get? n := by
  obtain ⟨entries⟩ := ts
  simp only [get?, insert, List.lookup_cons]
  by_cases h : n = m
  · simp [h]
  · rw [if_neg h, beq_eq_false_iff_ne.2 h]
    induction entries with
    | nil => rfl
    | cons e es ih =>
      obtain ⟨k, u⟩ := e
      by_cases hk : k = m
      · subst hk
        simpa [h, List.lookup_cons, beq_eq_false_iff_ne.2 h] using ih
      · simp only [List.filter_cons, bne_iff_ne, ne_eq, hk, not_false_eq_true, if_true,
          List.lookup_cons]
        split
        · rfl
        · exact ih

end Transforms

namespace Builtin

theorem head?_dateRefusal (shown : String) : (dateRefusal shown).toList.head? = some 'U' := by
  unfold dateRefusal
  simp

theorem head?_numberRefusal (shown : String) :
    (numberRefusal shown).toList.head? = some 'U' := by
  unfold numberRefusal
  simp

theorem head?_refusal {builtin : Builtin} {v : Value} {message : String}
    (h : builtin.transform v = .error message) : message.toList.head? = some 'U' := by
  cases builtin with
  | isoDate =>
    cases v with
    | string s =>
      simp only [transform, isoDateOf] at h
      split at h <;> cases h
      exact head?_dateRefusal _
    | _ =>
      cases h
      exact head?_dateRefusal _
  | intString =>
    cases v with
    | number d => cases h
    | string s =>
      simp only [transform, intStringOf] at h
      split at h <;> cases h
      exact head?_numberRefusal _
    | _ =>
      cases h
      exact head?_numberRefusal _

end Builtin

namespace Document

theorem get?_transformsFrom (number n : Nat) (cs : List ConversionSpec) :
    (transformsFrom number cs).get? n =
      if number ≤ n then (cs[n - number]?.bind (·.builtin)).map Builtin.transform else none := by
  induction cs generalizing number with
  | nil => simp [transformsFrom, Transforms.get?, Transforms.empty]
  | cons c cs ih =>
    have hrest : n ≠ number → (transformsFrom (number + 1) cs).get? n =
        if number ≤ n then ((c :: cs)[n - number]?.bind (·.builtin)).map Builtin.transform
        else none := by
      intro hne
      rw [ih]
      by_cases hle : number ≤ n
      · rw [if_pos (by omega), if_pos hle, show n - number = n - (number + 1) + 1 by omega,
          List.getElem?_cons_succ]
      · rw [if_neg (by omega), if_neg hle]
    rw [transformsFrom]
    cases hb : c.builtin with
    | none =>
      by_cases hne : n = number
      · subst hne
        simp [ih, hb]
      · exact hrest hne
    | some builtin =>
      simp only [Transforms.get?_insert]
      by_cases hne : n = number
      · subst hne
        simp [hb]
      · rw [if_neg hne]
        exact hrest hne

theorem isSome_transforms (doc : Document) (n : ConversionId) :
    (doc.transforms.get? n).isSome ↔
      1 ≤ n ∧ (doc.conversions[n - 1]?.bind (·.builtin)).isSome := by
  rw [transforms, get?_transformsFrom]
  split_ifs with h
  · cases doc.conversions[n - 1]? <;> simp [h]
  · simp [h]

/-! ### Numbers -/

theorem internHooks_numbers {t u : Table} {number : ConversionId} {cs : List ConversionSpec}
    {hooks : List (Hook TypeId)} (h : internHooks t number cs = .ok (hooks, u)) :
    hooks.map (·.conversion) = List.range' number cs.length ∧
      hooks.map (·.body) = cs.map (·.script) := by
  induction cs generalizing t number hooks with
  | nil =>
    cases h
    exact ⟨rfl, rfl⟩
  | cons c cs ih =>
    obtain ⟨d, t₁, rest, -, hrest, rfl⟩ := internHooks_cons_eq_ok.1 h
    obtain ⟨hnumbers, hscripts⟩ := ih hrest
    rw [List.length_cons, List.range'_succ, List.map_cons, List.map_cons, List.map_cons, hnumbers,
      hscripts]
    exact ⟨rfl, rfl⟩

section

variable {doc : Document} {r : Resolved} {roots : List Model.Root} {b : Builder TypeId}
  {p : Program}

theorem Compiles.hooks (h : doc.Compiles r roots b p) :
    r.hooks.map (·.conversion) = List.range' 1 doc.conversions.length ∧
      r.hooks.map (·.body) = doc.conversions.map (·.script) := by
  obtain ⟨t, t', -, -, hhooks⟩ := resolve_eq_ok.1 h.resolved
  exact internHooks_numbers hhooks

/-- The routines are those of the hooks, which are in order already. -/
theorem Compiles.routines (h : doc.Compiles r roots b p) :
    p.routines = r.hooks.map (routineOf r.table.oracle) := by
  obtain ⟨vs, -, hp⟩ := bind_eq_ok.1 h.written
  obtain ⟨checks, -, hp⟩ := bind_eq_ok.1 hp
  obtain rfl := Except.ok.inj hp
  refine List.mergeSort_of_pairwise ?_
  have hsorted : (r.hooks.map (·.conversion)).Pairwise (· < ·) := by
    rw [h.hooks.1]
    exact List.pairwise_lt_range' 1
  simp only [List.pairwise_map, decide_eq_true_eq] at hsorted ⊢
  exact hsorted.imp fun hlt => Nat.le_of_lt hlt

theorem Compiles.converts_validators (h : doc.Compiles r roots b p) :
    List.Forall₂ (fun q v => v.name = q.name ∧
      Converts r.table.oracle r.hooks [(.root, q.root)] v.body) r.requests p.validators := by
  obtain ⟨hvalid, hroots⟩ := h.advances
  have hh := Builder.checkHooks_eq_ok.1 h.unclashed
  refine (forall₂_span hroots.flip h.programs.validators).imp ?_
  rintro q v ⟨root, ⟨hname, -, hknown⟩, hv, hstmts⟩
  exact ⟨hv.trans hname, hvalid.converts_stmts hh hknown hstmts⟩

theorem Compiles.converts_recordChecks (h : doc.Compiles r roots b p) :
    List.Forall₂ (fun d c => Converts r.table.oracle r.hooks
      ((r.table.oracle.recordFields d).map fun f => (.field f.1, f.2)) c.body)
      (b.records r.table.oracle r.hooks) p.recordChecks := by
  obtain ⟨hvalid, -⟩ := h.advances
  have hh := Builder.checkHooks_eq_ok.1 h.unclashed
  have hlen := congrArg List.length h.recordChecks
  rw [List.length_map, List.length_range] at hlen
  refine List.forall₂_of_length_eq_of_get hlen.symm fun i h₁ h₂ => ?_
  rw [List.get_eq_getElem, List.get_eq_getElem]
  have hrecord := Program.record_of_getElem? h.recordChecks (List.getElem?_eq_getElem h₂)
  obtain ⟨id, members, hd, hk⟩ := (h.numbered.1.iff hvalid).1 (List.getElem?_eq_getElem h₁)
  obtain ⟨-, hself⟩ := h.recordCheck?_self (List.getElem_mem h₂)
  obtain ⟨⟨members', hmembers, hfields⟩, -⟩ := h.programs.covers _ _ hself
  rw [hrecord, hvalid.numbered id i members hk] at hmembers
  obtain rfl := Option.some.inj hmembers
  obtain ⟨-, -, hf⟩ := hvalid.of_record hd List.not_mem_nil hk
  exact hvalid.converts_fieldStmts hh hf hfields

theorem Compiles.convert_bounds (h : doc.Compiles r roots b p) {body : List Stmt}
    (hbody : body ∈ p.bodies) {n : ConversionId} {place : Place}
    (hc : .convert n place ∈ allActs body) : 1 ≤ n ∧ n ≤ doc.conversions.length := by
  have hhook : ∃ k ∈ r.hooks, k.conversion = n := by
    rcases List.mem_append.1 hbody with hv | hr
    · obtain ⟨v, hmem, rfl⟩ := List.mem_map.1 hv
      obtain ⟨q, -, -, hconverts⟩ := exists_of_mem_right h.converts_validators hmem
      obtain ⟨-, -, -, -, -, -, k, hk, hn, -⟩ := (hconverts n place).1 hc
      exact ⟨k, hk, hn⟩
    · obtain ⟨c, hmem, rfl⟩ := List.mem_map.1 hr
      obtain ⟨d, -, hconverts⟩ := exists_of_mem_right h.converts_recordChecks hmem
      obtain ⟨-, -, -, -, -, -, k, hk, hn, -⟩ := (hconverts n place).1 hc
      exact ⟨k, hk, hn⟩
  obtain ⟨k, hk, rfl⟩ := hhook
  have hmem : k.conversion ∈ List.range' 1 doc.conversions.length :=
    h.hooks.1 ▸ List.mem_map_of_mem hk
  obtain ⟨hle, hlt⟩ := List.mem_range'_1.1 hmem
  rw [Nat.add_comm] at hlt
  exact ⟨hle, Nat.le_of_lt_succ hlt⟩

theorem Compiles.exists_builtin (h : doc.Compiles r roots b p)
    (hall : ∀ c ∈ doc.conversions, c.builtin.isSome) {body : List Stmt} (hbody : body ∈ p.bodies)
    {n : ConversionId} {place : Place} (hc : .convert n place ∈ allActs body) :
    ∃ builtin : Builtin, doc.transforms.get? n = some builtin.transform := by
  obtain ⟨hle, hlt⟩ := h.convert_bounds hbody hc
  have hindex : n - 1 < doc.conversions.length := Nat.sub_one_lt_of_le hle hlt
  obtain ⟨builtin, hb⟩ := Option.isSome_iff_exists.1 (hall _ (List.getElem_mem hindex))
  refine ⟨builtin, ?_⟩
  rw [transforms, get?_transformsFrom, if_pos hle, List.getElem?_eq_getElem hindex,
    Option.bind_some, hb]
  rfl

theorem Compiles.validate_ne_unregistered (h : doc.Compiles r roots b p)
    (hall : ∀ c ∈ doc.conversions, c.builtin.isSome) (name : String) (v : Value)
    (n : ConversionId) : p.validate doc.transforms name v ≠
      .error (.conversion n "no executable transform registered") := by
  intro he
  -- the only error of this kind is that of an act whose conversion has no transform
  have hP := Program.validate_error (P := fun e => ∀ n,
    e ≠ .conversion n "no executable transform registered") (by simp) (by simp) ?_ he
  · exact hP n rfl
  · rintro body hbody a ha env e hts hcalled herr n rfl
    cases herr with
    | unregistered hnone =>
      obtain ⟨builtin, hsome⟩ := h.exists_builtin hall hbody ha
      rw [hts, hsome] at hnone
      cases hnone
    | refused hsome hrefuse =>
      obtain ⟨builtin, hsome'⟩ := h.exists_builtin hall hbody ha
      rw [hts, hsome'] at hsome
      obtain rfl := Option.some.inj hsome
      have := Builtin.head?_refusal hrefuse
      simp at this
    | called s hcheck herr => exact hcalled _ _ _ _ _ hcheck herr n rfl

end

/-- What the program of a document has to do with its conversions, whose targets are those of the
hooks that `r` has for them. -/
structure NumbersConversions (doc : Document) (r : Resolved) (p : Program) : Prop where
  resolved : doc.resolve = .ok r
  /-- The entries of requests and targets are those of their expressions. -/
  stands : (Fields.names doc.types).Nodup → doc.Stands r
  hooks : r.hooks.map (·.conversion) = List.range' 1 doc.conversions.length
  /-- There is one routine for each conversion, numbered from one on. -/
  routines : p.routines = r.hooks.map (routineOf r.table.oracle)
  numbers : p.routines.map (·.conversion) = List.range' 1 doc.conversions.length
  scripts : p.routines.map (·.body) = doc.conversions.map (·.script)
  bounds : ∀ body ∈ p.bodies, ∀ n place, .convert n place ∈ allActs body →
    1 ≤ n ∧ n ≤ doc.conversions.length
  validators : List.Forall₂ (fun q v => v.name = q.name ∧
    Converts r.table.oracle r.hooks [(.root, q.root)] v.body) r.requests p.validators
  /-- The record checks are those of the records that the requests lead to. -/
  records : ∃ ds : List TypeId, List.Forall₂ (fun d c => Converts r.table.oracle r.hooks
      ((r.table.oracle.recordFields d).map fun f => (.field f.1, f.2)) c.body) ds p.recordChecks ∧
    ∀ d, d ∈ ds ↔ IsRecord r.table.oracle r.hooks d ∧
      ∃ q ∈ r.requests, Reaches r.table.oracle r.hooks q.root d

/-- The routines of a document that compiles, the statements that call them and the transforms of
those that are built in have the same numbers: those of the conversions of the document, from one
on. So if all of them are built in, a run never lacks a transform. -/
theorem conversions_agree (doc : Document) (p : Program) (h : doc.compile = .ok p) :
    (∃ r, doc.NumbersConversions r p) ∧
      (∀ n, (doc.transforms.get? n).isSome ↔
        1 ≤ n ∧ (doc.conversions[n - 1]?.bind (·.builtin)).isSome) ∧
      ((∀ c ∈ doc.conversions, c.builtin.isSome) → ∀ name v n,
        p.validate doc.transforms name v ≠
          .error (.conversion n "no executable transform registered")) := by
  obtain ⟨r, roots, b, h⟩ := compile_eq_ok.1 h
  obtain ⟨hnumbers, hscripts⟩ := h.hooks
  refine ⟨⟨r, ?_⟩, doc.isSome_transforms, h.validate_ne_unregistered⟩
  exact {
    resolved := h.resolved
    stands := fun hn => resolve_stands hn h.resolved
    hooks := hnumbers
    routines := h.routines
    numbers := by
      rw [h.routines, List.map_map]
      exact hnumbers
    scripts := by
      rw [h.routines, List.map_map]
      exact hscripts
    bounds := fun body hbody n place hc => h.convert_bounds hbody hc
    validators := h.converts_validators
    records := by
      refine ⟨b.records r.table.oracle r.hooks, h.converts_recordChecks, fun d => ?_⟩
      rw [Builder.records, List.mem_filter, h.numbered.2.mem_iff, decide_eq_true_eq, and_comm]
      simp }

/-- Events on days that are given as texts, with seats that may be texts too. -/
def events : Document :=
  { empty with
    types := [("Event", .record [("days", .array (.name "string")),
      ("seats", .union [.name "number", .name "null"])])]
    conversions := [⟨.name "string", "", some .isoDate⟩, ⟨.name "number", "", some .intString⟩]
    generate := [⟨"parseEvents", .array (.name "Event")⟩] }

theorem conversions_agree_events : ∃ p, events.compile = .ok p ∧
    (∃ r, events.NumbersConversions r p) ∧
    (∀ n, (events.transforms.get? n).isSome ↔
      1 ≤ n ∧ (events.conversions[n - 1]?.bind (·.builtin)).isSome) ∧
    ∀ name v n, p.validate events.transforms name v ≠
      .error (.conversion n "no executable transform registered") := by
  obtain ⟨p, hp⟩ : ∃ p, events.compile = .ok p := exists_of_isOk (by decide +kernel)
  obtain ⟨hnumbers, hsome, hrun⟩ := conversions_agree events p hp
  exact ⟨p, hp, hnumbers, hsome, hrun (by simp [events])⟩

end Document

end Conform
