import Conform.Proofs.Builder.Endless
import Conform.Proofs.Builder.Image
import Conform.Proofs.Model.Acts

/-! A program cannot be written exactly if a root leads to an array or a union that is inside itself
without a record between. Nothing else stands in the way of one, and the bounds on the writing are
never what ends it. -/

namespace Conform

mutual

theorem Stmt.mem_calls (s : Stmt) {r : RecordId} :
    r ∈ s.calls ↔ ∃ place path, .call r place path ∈ s.acts := by
  cases s with
  | check branches otherwise =>
    rw [Stmt.calls, Stmt.acts, mem_branchCalls_iff branches]
    cases otherwise <;> simp [Fallback.act]
  | convert n place => simp [Stmt.calls, Stmt.acts]
  | forEach place depth body => rw [Stmt.calls, Stmt.acts, mem_allCalls body]
  | call record place path => simp [Stmt.calls, Stmt.acts]

theorem mem_allCalls (ss : List Stmt) {r : RecordId} :
    r ∈ allCalls ss ↔ ∃ place path, .call r place path ∈ allActs ss := by
  cases ss with
  | nil => simp [allCalls, allActs]
  | cons s ss =>
    simp only [allCalls, allActs, List.mem_append, Stmt.mem_calls s, mem_allCalls ss, exists_or]

theorem mem_branchCalls_iff (bs : List Branch) {r : RecordId} :
    r ∈ branchCalls bs ↔ ∃ place path, .call r place path ∈ branchActs bs := by
  cases bs with
  | nil => simp [branchCalls, branchActs]
  | cons b bs =>
    cases b with
    | mk label test body =>
      simp only [branchCalls, branchActs, List.mem_append, mem_allCalls body,
        mem_branchCalls_iff bs, exists_or]

end

namespace Model

def Leads (m : Model) : NodeId → NodeId → Prop :=
  Relation.ReflTransGen fun id x => x ∈ (m.kind id).refs

/-- Whether an error names an array or a union that a node leads to and that is inside itself. -/
def Recurs (m : Model) (id : NodeId) (e : CompileError) : Prop :=
  ∃ x node, m.Leads id x ∧ Relation.TransGen m.Within x x ∧ m.node? x = some node ∧
    e = .unsupported node.name "recursive type without a record boundary"

variable {m : Model} {site t : Site} {chain : Chain} {bound bound' : Nat} {active : List NodeId}
  {id x y : NodeId} {e : CompileError} {r : RecordId} {roots : List Root} {p : Program}
  {done : List RecordCheck} {queue : List RecordId} {members : List (String × NodeId)}

theorem Within.ref (h : m.Within x id) : x ∈ (m.kind id).refs := by
  rcases h with h | ⟨members, h, hx⟩
  · simp [h, NodeKind.refs]
  · simpa [h, NodeKind.refs] using hx

theorem leads_of_within (h : Relation.ReflTransGen m.Within x id) : m.Leads id x := by
  induction h with
  | refl => exact .refl
  | tail _ hw ih => exact .head hw.ref ih

theorem leads_part {k : NodeKind} (h : k ∈ m.parts id) : ∃ x, m.Leads id x ∧ m.kind x = k := by
  unfold parts at h
  split at h
  · rename_i members hm
    obtain ⟨x, hx, rfl⟩ := List.mem_map.1 h
    exact ⟨x, .single (by simpa [hm, NodeKind.refs] using hx), rfl⟩
  · exact ⟨id, .refl, (List.mem_singleton.1 h).symm⟩

theorem Inside.leads (h : m.Inside site id t x) : m.Leads id x := by
  induction h with
  | self => exact .refl
  | item hpart _ ih =>
    obtain ⟨y, hy, hk⟩ := leads_part hpart
    exact (hy.tail (by simp [hk, NodeKind.refs])).trans ih

theorem Recurs.of_leads (h : m.Recurs x e) (hx : m.Leads id x) : m.Recurs id e := by
  obtain ⟨y, node, hy, h⟩ := h
  exact ⟨y, node, hx.trans hy, h⟩

/-! ### Errors -/

theorem leads_of_calls (flat : m.Flat) {body : List Stmt} (h : m.fieldStmts members = .ok body)
    (hr : r ∈ allCalls body) :
    ∃ f ∈ members, ∃ x members', m.Leads f.2 x ∧ m.kind x = .record r members' := by
  obtain ⟨place, path, hact⟩ := (mem_allCalls body).1 hr
  obtain ⟨f, hf, t, x, hin, hat⟩ := (mem_acts_fieldStmts flat h).1 hact
  cases hat with
  | @call _ members' hpart =>
    obtain ⟨y, hy, hk⟩ := leads_part hpart
    exact ⟨f, hf, y, members', hin.leads.trans hy, hk⟩

theorem stmts_eq_error (flat : m.Flat) (whole : m.Whole) (h : m.stmts site id = .error e) :
    m.Recurs id e := by
  rcases bind_eq_error.1 h with h | ⟨chain, -, h⟩
  · obtain ⟨x, node, hx, hself, hn, he⟩ :=
      extend_eq_error flat whole (.start m id) agrees_empty h
    exact ⟨x, node, leads_of_within hx, hself, hn, he⟩
  · cases h

theorem fieldStmts_eq_error (flat : m.Flat) (whole : m.Whole)
    (h : m.fieldStmts members = .error e) : ∃ f ∈ members, m.Recurs f.2 e := by
  induction members with
  | nil => cases h
  | cons f fs ih =>
    rcases bind_eq_error.1 h with h | ⟨head, -, h⟩
    · exact ⟨f, by simp, stmts_eq_error flat whole h⟩
    · rcases bind_eq_error.1 h with h | ⟨rest, -, h⟩
      · obtain ⟨g, hg, hrec⟩ := ih h
        exact ⟨g, List.mem_cons_of_mem _ hg, hrec⟩
      · cases h

theorem validators_eq_error (flat : m.Flat) (whole : m.Whole)
    (h : m.validators roots = .error e) : ∃ root ∈ roots, m.Recurs root.node e := by
  induction roots with
  | nil => cases h
  | cons root roots ih =>
    rcases bind_eq_error.1 h with h | ⟨head, -, h⟩
    · exact ⟨root, by simp, stmts_eq_error flat whole h⟩
    · rcases bind_eq_error.1 h with h | ⟨rest, -, h⟩
      · obtain ⟨other, hother, hrec⟩ := ih h
        exact ⟨other, List.mem_cons_of_mem _ hother, hrec⟩
      · cases h

/-- Whether a root leads to a record of a number. -/
def Called (m : Model) (roots : List Root) (r : RecordId) : Prop :=
  ∃ root ∈ roots, ∃ x members, m.Leads root.node x ∧ m.kind x = .record r members

theorem Called.fields (numbered : m.Numbered) (h : m.Called roots r)
    (hm : m.recordMembers? r = some members) :
    ∃ root ∈ roots, ∀ f ∈ members, m.Leads root.node f.2 := by
  obtain ⟨root, hroot, x, members', hx, hk⟩ := h
  obtain rfl := Option.some.inj ((numbered x r members' hk).symm.trans hm)
  exact ⟨root, hroot, fun f hf => hx.tail (by simpa [hk, NodeKind.refs] using ⟨f.1, hf⟩)⟩

theorem recordChecks_eq_error (flat : m.Flat) (whole : m.Whole) (numbered : m.Numbered)
    (hq : ∀ r ∈ queue, m.Called roots r) (h : m.recordChecks bound done queue = .error e) :
    ∃ root ∈ roots, m.Recurs root.node e := by
  induction bound generalizing done queue with
  | zero => cases h
  | succ bound ih =>
    cases queue with
    | nil => cases h
    | cons r queue =>
      rw [recordChecks] at h
      have hrest : ∀ r ∈ queue, m.Called roots r := fun r hr => hq r (List.mem_cons_of_mem _ hr)
      cases hm : m.recordMembers? r with
      | none =>
        rw [hm] at h
        exact ih hrest h
      | some members =>
        rw [hm] at h
        obtain ⟨root, hroot, hfields⟩ := (hq r (by simp)).fields numbered hm
        rcases bind_eq_error.1 h with h | ⟨body, hbody, h⟩
        · obtain ⟨f, hf, hrec⟩ := fieldStmts_eq_error flat whole h
          exact ⟨root, hroot, hrec.of_leads (hfields f hf)⟩
        · refine ih (fun r' hr' => ?_) h
          rcases List.mem_append.1 hr' with hr' | hr'
          · exact hrest r' hr'
          · have hcall := mem_firstOccurrences.1 (List.mem_filter.1 hr').1
            obtain ⟨f, hf, x, members', hx, hk⟩ := leads_of_calls flat hbody hcall
            exact ⟨root, hroot, x, members', (hfields f hf).trans hx, hk⟩

theorem program_eq_error (flat : m.Flat) (whole : m.Whole) (numbered : m.Numbered)
    {routines : List Routine} (h : m.program roots routines = .error e) :
    ∃ root ∈ roots, m.Recurs root.node e := by
  rcases bind_eq_error.1 h with h | ⟨vs, hvs, h⟩
  · exact validators_eq_error flat whole h
  rcases bind_eq_error.1 h with h | ⟨checks, -, h⟩
  · refine recordChecks_eq_error flat whole numbered (fun r hr => ?_) h
    obtain ⟨v, hv, hr⟩ := List.mem_flatMap.1 (mem_firstOccurrences.1 hr)
    obtain ⟨root, hroot, -, hbody⟩ := exists_of_mem_right (validators_eq hvs) hv
    obtain ⟨place, path, hact⟩ := (mem_allCalls v.body).1 hr
    obtain ⟨t, x, hin, hat⟩ := (mem_acts_stmts flat hbody).1 hact
    cases hat with
    | @call _ members hpart =>
      obtain ⟨y, hy, hk⟩ := leads_part hpart
      exact ⟨root, hroot, y, members, hin.leads.trans hy, hk⟩
  · cases h

/-! ### Programs -/

/-- Whatever a root leads to is written out in the program, or is a member of a union that is. -/
theorem Programs.placed (flat : m.Flat) (numbered : m.Numbered) (h : m.Programs roots p)
    {root : Root} (hroot : root ∈ roots) (hx : m.Leads root.node x) :
    ∃ u, m.Built p u ∧ (x = u ∨ ∃ members, m.kind u = .union members ∧ x ∈ members) := by
  induction hx with
  | refl => exact ⟨root.node, h.built hroot, Or.inl rfl⟩
  | @tail x y _ hy ih =>
    obtain ⟨u, hu, hxu⟩ := ih
    have hpart : (m.kind x).isUnion = false → m.kind x ∈ m.parts u := by
      intro hn
      rcases hxu with rfl | ⟨members, hk, hx⟩
      · unfold parts
        split
        · rename_i members hm
          simp [hm, NodeKind.isUnion] at hn
        · simp
      · exact (parts_member flat hk hx).2
    cases hk : m.kind x with
    | array element =>
      rw [hk] at hy hpart
      cases element with
      | none => simp [NodeKind.refs] at hy
      | some element =>
        obtain rfl : y = element := by simpa [NodeKind.refs] using hy
        exact ⟨y, hu.element flat (hpart rfl), Or.inl rfl⟩
    | union members =>
      rw [hk] at hy
      rcases hxu with rfl | ⟨members', hk', hx⟩
      · exact ⟨x, hu, Or.inr ⟨members, hk, hy⟩⟩
      · have := flat u members' hk' x hx
        rw [hk] at this
        cases this
    | record r members =>
      rw [hk] at hy hpart
      obtain ⟨f, hf, rfl⟩ := List.mem_map.1 hy
      exact ⟨f.2, hu.field flat numbered h.covers (hpart rfl) f hf, Or.inl rfl⟩
    | _ => simp [hk, NodeKind.refs] at hy

theorem Programs.irrefl (flat : m.Flat) (numbered : m.Numbered) (h : m.Programs roots p)
    {root : Root} (hroot : root ∈ roots) (hx : m.Leads root.node x) :
    ¬ Relation.TransGen m.Within x x := by
  obtain ⟨u, hu, rfl | ⟨members, hk, hmem⟩⟩ := h.placed flat numbered hroot hx
  · exact irrefl_of_acc hu.acc
  · exact irrefl_of_acc (hu.acc.inv (Or.inr ⟨members, hk, hmem⟩))

/-! ### Bounds -/

/-- Any bound that is large enough gives the same. -/
theorem extend_bound (hn : active.Nodup) (hlt : ∀ a ∈ active, a < m.nodes.size)
    (hb : m.nodes.size < bound + active.length) (hb' : m.nodes.size < bound' + active.length) :
    m.extend bound active site chain id = m.extend bound' active site chain id := by
  induction bound generalizing bound' active site chain id with
  | zero => exact absurd rfl (bound_pos hn hlt hb)
  | succ bound ih =>
    obtain ⟨bound', rfl⟩ := Nat.exists_eq_succ_of_ne_zero (bound_pos hn hlt hb')
    rw [extend, extend]
    cases hnode : m.node? id with
    | none => rfl
    | some node =>
      have hid : id < m.nodes.size := (Array.getElem?_eq_some_iff.1 hnode).1
      have hinner : id ∉ active → ∀ {site chain x}, m.extend bound (id :: active) site chain x =
          m.extend bound' (id :: active) site chain x := by
        intro hnot site chain x
        refine ih (List.nodup_cons.2 ⟨hnot, hn⟩) (List.forall_mem_cons.2 ⟨hid, hlt⟩) ?_ ?_ <;>
          · rw [List.length_cons]
            omega
      cases hkind : node.kind with
      | array element =>
        cases element with
        | none => simp only [hkind]
        | some x =>
          by_cases hact : active.contains id
          · simp only [hkind, hact, if_true]
          · simp only [hkind, hact, hinner (by simpa using hact)]
      | union members =>
        by_cases hact : active.contains id
        · simp only [hkind, hact, if_true]
        · simp only [hkind, hact, hinner (by simpa using hact)]
      | _ => simp only [hkind]

theorem Written.recordChecks_bound (counted : m.Counted) (numbered : m.Numbered)
    (h : m.Written done queue) (hb : m.recordCount < bound + done.length)
    (hb' : m.recordCount < bound' + done.length) :
    m.recordChecks bound done queue = m.recordChecks bound' done queue := by
  have hlen := h.length_le counted
  induction bound generalizing bound' done queue with
  | zero => omega
  | succ bound ih =>
    obtain ⟨bound', rfl⟩ := Nat.exists_eq_succ_of_ne_zero (n := bound') (by omega)
    cases queue with
    | nil => rw [Model.recordChecks, Model.recordChecks]
    | cons r queue =>
      obtain ⟨id, members, hk⟩ := h.record r (by simp)
      have hm := numbered id r members hk
      rw [Model.recordChecks, Model.recordChecks, hm]
      cases hbody : m.fieldStmts members with
      | error e => simp only [hbody, bind, Except.bind]
      | ok body =>
        have hstep := h.step hm hbody
        simp only [hbody, bind, Except.bind]
        exact ih hstep (by simp; omega) (by simp; omega) (hstep.length_le counted)

end Model

namespace Builder

variable {D : Type} [DecidableEq D]

/-- Where all types resolve, a program cannot be written exactly if a root leads to a node that is
inside itself without a record between, and the error says so of one of them. The bounds do not
matter as soon as they are larger than the number of nodes and that of records. -/
theorem resolveRoots_program (o : Oracle D) (hooks : List (Hook D)) (requests : List (Request D))
    (resolved : List Model.Root) (b : Builder D)
    (h : resolveRoots o hooks .empty requests = .ok (resolved, b)) (roots : List Model.Root)
    (routines : List Routine) :
    ((∃ e, b.finish.program roots routines = .error e) ↔ ∃ root ∈ roots, ∃ x,
      b.finish.Leads root.node x ∧ Relation.TransGen b.finish.Within x x) ∧
    (∀ e, b.finish.program roots routines = .error e → ∃ root ∈ roots,
      b.finish.Recurs root.node e) ∧
    (∀ bound site id, b.nodes.size < bound → b.finish.extend bound [] site .empty id =
      b.finish.extend (b.nodes.size + 1) [] site .empty id) ∧
    (∀ bound vs, b.recordCount < bound → b.finish.validators roots = .ok vs →
      b.finish.recordChecks bound [] (firstOccurrences (vs.flatMap fun v => allCalls v.body)) =
        b.finish.recordChecks (b.recordCount + 1) []
          (firstOccurrences (vs.flatMap fun v => allCalls v.body))) := by
  obtain ⟨ha, -⟩ := resolveRoots_advances valid_empty h
  have hv := ha.valid
  refine ⟨⟨?_, ?_⟩, fun e he => Model.program_eq_error hv.flat hv.whole hv.numbered he, ?_, ?_⟩
  · rintro ⟨e, he⟩
    obtain ⟨root, hroot, x, node, hx, hself, -⟩ :=
      Model.program_eq_error hv.flat hv.whole hv.numbered he
    exact ⟨root, hroot, x, hx, hself⟩
  · rintro ⟨root, hroot, x, hx, hself⟩
    cases hp : b.finish.program roots routines with
    | error e => exact ⟨e, rfl⟩
    | ok p =>
      have hprograms := Model.Programs.of_program hv.model_counted hv.numbered hp
      exact absurd hself (hprograms.irrefl hv.flat hv.numbered hroot hx)
  · intro bound site id hb
    refine Model.extend_bound List.nodup_nil (by simp) ?_ ?_
    · exact hb
    · exact Nat.lt_succ_self _
  · intro bound vs hb hvs
    refine (Model.Written.start hvs).recordChecks_bound hv.model_counted hv.numbered ?_ ?_
    · exact hb
    · exact Nat.lt_succ_self _

/-- Lists of lists without an end, or numbers; and a record that refers to itself. -/
def spiral : Oracle Nat where
  descriptors := List.range 5
  is d t := [(0, Trait.union), (1, .array), (2, .number), (3, .record), (4, .union)].contains (d, t)
  unionMembers d := if d = 0 then [1, 2] else if d = 4 then [3, 2] else []
  recordFields d := if d = 3 then [("next", 4)] else []
  arrayElement d := if d = 1 then some 0 else none
  literalValue _ := none
  typeName d := toString d

theorem resolveRoots_program_spiral : ∃ roots b,
    resolveRoots spiral [] .empty [⟨"parseRing", 4⟩, ⟨"parseList", 0⟩] = .ok (roots, b) ∧
    (∃ e, b.finish.program roots [] = .error e) ∧
    (∃ root ∈ roots, ∃ x, b.finish.Leads root.node x ∧ Relation.TransGen b.finish.Within x x) ∧
    ∀ e, b.finish.program roots [] = .error e → ∃ root ∈ roots, b.finish.Recurs root.node e := by
  obtain ⟨⟨roots, b⟩, h⟩ : ∃ x, resolveRoots spiral [] .empty
      [⟨"parseRing", 4⟩, ⟨"parseList", 0⟩] = .ok x := exists_of_isOk (by decide +kernel)
  have hfails : (resolveRoots spiral [] .empty [⟨"parseRing", 4⟩, ⟨"parseList", 0⟩] >>= fun r =>
      r.2.finish.program r.1 []).isOk = false := by decide +kernel
  have herror : ∃ e, b.finish.program roots [] = .error e := by
    cases hp : b.finish.program roots [] with
    | error e => exact ⟨e, rfl⟩
    | ok p =>
      rw [bind_eq_ok.2 ⟨_, h, hp⟩] at hfails
      cases hfails
  obtain ⟨hiff, herrors, -⟩ := resolveRoots_program spiral [] _ roots b h roots []
  exact ⟨roots, b, h, herror, hiff.1 herror, herrors⟩

end Builder

end Conform
