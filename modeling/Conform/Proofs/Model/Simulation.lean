import Conform.Proofs.Model.Running

/-! Running what is written for a node at a place does to the value there what a visit of the
node says. The proof follows the depth of the value: items of an array and fields of an object
are less deep, and each record check that is called goes a level down, so that as many nested
checks as the value has levels are enough. -/

namespace Conform

namespace Value

theorem withFields_fields (v : Value) : v.withFields v.fields = v := by cases v <;> rfl

theorem get_eq_fields (v : Value) (name : String) :
    v.get name = (Fields.get? name v.fields).getD .undefined := by
  cases v <;> simp [get, fields, Fields.get?]

theorem get_withFields {v : Value} {fields : List (String × Value)} {name : String}
    (h : Fields.get? name fields = Fields.get? name v.fields) :
    (v.withFields fields).get name = v.get name := by
  cases v <;> simp_all [withFields, get, Value.fields]

theorem write_field_withFields (v w : Value) (name : String) (fields : List (String × Value)) :
    write w [.field name] (v.withFields fields) = v.withFields (Fields.put name w fields) := by
  cases v <;> simp [withFields, write]

end Value

namespace Model

/-- Whether a site uses only counters of loops around it. -/
structure Site.Scoped (site : Site) : Prop where
  place : site.place.Within site.depth
  path : site.path.Within site.depth

theorem Site.Scoped.item {site : Site} (h : site.Scoped) : site.item.Scoped :=
  ⟨⟨h.place.mono (by simp [Site.item]), by simp [Site.item]⟩,
    ⟨⟨h.path.mono (by simp [Site.item]), trivial⟩, by simp [Site.item, Path.Within]⟩, trivial⟩

theorem Site.Scoped.field (name : String) : (Site.field name).Scoped :=
  ⟨trivial, trivial, trivial⟩

theorem Site.Scoped.root : Site.root.Scoped := ⟨trivial, trivial⟩

/-- Whether a run of statements at a site does what `r` says to the value there. -/
def Does (env : Env) (site : Site) (body : List Stmt) (s : State) :
    Except CheckError (Option Value) → Prop
  | .error e => runAll env body s = .error e
  | .ok w => ∃ cs, Counters.Agree site.depth s.counters cs ∧
      runAll env body s = .ok ⟨s.settle site.place w, cs⟩

/-- Whether conversions of one field cannot get in the way of a later one. -/
def Separate (m : Model) : Prop := m.Plain ∨ m.Distinct

def Numbered (m : Model) : Prop :=
  ∀ id record members, m.kind id = .record record members →
    m.recordMembers? record = some members

/-- Whether the record checks of a program are those of a model and call none that is missing. -/
def Covers (p : Program) (m : Model) : Prop :=
  ∀ record check, p.recordCheck? record = some check →
    (∃ members, m.recordMembers? record = some members ∧
      m.fieldStmts members = .ok check.body) ∧
    ∀ r ∈ allCalls check.body, (p.recordCheck? r).isSome

/-- Whether what is written for nodes does to a value what visits of the nodes say, with up to
`n` record checks inside each other. -/
def Simulates (m : Model) (p : Program) (ts : Transforms) (n : Nat) (v : Value) : Prop :=
  ∀ {site : Site} {bound : Nat} {active : List NodeId} {id : NodeId} {chain : Chain}
    (given : String) (s : State), site.Scoped →
    m.extend bound active site .empty id = .ok chain →
    (∀ r ∈ allCalls (chain.toStmts site.place site.path), (p.recordCheck? r).isSome) →
    site.depth ≤ s.counters.length → s.read site.place = v →
    (v.isComposite → s.value.slot? (site.place.steps s.counters) = some v) →
    Does ⟨ts, p.checkRecord ts n, given⟩ site (chain.toStmts site.place site.path) s
      (m.visit ts id (site.path.eval given s.counters.get) v)

section

variable {m : Model} {p : Program} {ts : Transforms}

theorem eval_item {site : Site} {given : String} {cs cs' : Counters} {i : Nat}
    (hsite : site.Scoped) (h : Counters.Agree site.depth cs cs')
    (hi : cs'[site.depth]? = some i) :
    site.item.path.eval given cs'.get = site.path.eval given cs.get ++ "[" ++ toString i ++ "]" := by
  have hget : cs'.get site.depth = i := by simp [Counters.get, hi]
  have htext (t : String) : (Path.text t).eval given cs'.get = t := by
    simp [Path.eval, Path.parts, Path.partText]
  have hcount : (Path.counter site.depth).eval given cs'.get = toString i := by
    simp [Path.eval, Path.parts, Path.partText, hget]
  simp only [Site.item, itemPath, Path.eval_append, htext, hcount,
    Path.eval_agree hsite.path h]

section

variable {site : Site} {bound n : Nat} {active : List NodeId} {element : NodeId} {chain : Chain}
  {cs : Counters} {steps : List Step} {path : String}

theorem Site.Scoped.steps_item (hsite : site.Scoped) (hsteps : site.place.steps cs = steps)
    {cs' : Counters} (h : Counters.Agree site.depth cs cs') (i : Nat) :
    site.item.place.steps (cs'.put site.depth i) = steps ++ [.item (some i)] := by
  have hcount : (cs'.put site.depth i)[site.depth]? = some i := Counters.getElem?_put _ _
  rw [← hsteps, ← Place.steps_agree hsite.place (h.trans (.put h.length_le i)), ← hcount]
  rfl

theorem Site.Scoped.slot?_item (hsite : site.Scoped) (hsteps : site.place.steps cs = steps)
    {before rest : List Value} {u : Value} {s : State}
    (h : Counters.Agree site.depth cs s.counters)
    (hslot : s.value.slot? steps = some (.array (before ++ u :: rest))) :
    s.value.slot? (site.item.place.steps (s.counters.put site.depth before.length)) = some u := by
  rw [hsite.steps_item hsteps h, Value.slot?_append, hslot]
  simp [Value.slot?]

/-- One round of a loop, where the items before it are done. -/
theorem run_item (given : String) (hsite : site.Scoped)
    (hx : m.extend bound active site.item .empty element = .ok chain)
    (hcalls : ∀ r ∈ allCalls (chain.toStmts site.item.place site.item.path),
      (p.recordCheck? r).isSome)
    (hsteps : site.place.steps cs = steps) (hpath : site.path.eval given cs.get = path)
    {u : Value} {rest : List Value} (ih : m.Simulates p ts n u) (before : List Value) (s : State)
    (hs : Counters.Agree site.depth cs s.counters)
    (hslot : s.value.slot? steps = some (.array (before ++ u :: rest))) :
    match m.visit ts element (path ++ "[" ++ toString before.length ++ "]") u with
    | .error e => runAll ⟨ts, p.checkRecord ts n, given⟩
        (chain.toStmts site.item.place site.item.path)
        { s with counters := s.counters.put site.depth before.length } = .error e
    | .ok w => ∃ cs', Counters.Agree site.depth cs cs' ∧
        runAll ⟨ts, p.checkRecord ts n, given⟩ (chain.toStmts site.item.place site.item.path)
          { s with counters := s.counters.put site.depth before.length } =
          .ok ⟨Value.write (.array (before ++ w.getD u :: rest)) steps s.value, cs'⟩ := by
  -- the state at the start of the round, and where the item is in it
  set t : State := { s with counters := s.counters.put site.depth before.length } with ht
  have hput : Counters.Agree site.depth cs t.counters :=
    hs.trans (Counters.Agree.put hs.length_le _)
  have hitem : site.item.place.steps t.counters = steps ++ [.item (some before.length)] :=
    hsite.steps_item hsteps hs _
  have hu : t.value.slot? (site.item.place.steps t.counters) = some u :=
    hsite.slot?_item hsteps hs hslot
  have hround := ih given t hsite.item hx hcalls
    (Counters.length_le_put _ _) (Place.read_of_slot? hu) fun _ => hu
  rw [eval_item hsite hput (Counters.getElem?_put _ _), hpath] at hround
  cases hv : m.visit ts element (path ++ "[" ++ toString before.length ++ "]") u with
  | error e =>
    rw [hv] at hround
    exact hround
  | ok w =>
    rw [hv] at hround
    obtain ⟨cs', hcs', hround⟩ := hround
    refine ⟨cs', hput.trans (hcs'.mono (by simp [Site.item])), ?_⟩
    have hvalue : t.settle site.item.place w =
        Value.write (.array (before ++ w.getD u :: rest)) steps s.value := by
      cases w with
      | none => exact (Value.write_slot hslot).symm
      | some w =>
        rw [State.settle, hitem, Value.write_append w _ hslot]
        simp [Value.write, List.modify_eq_set_getElem?]
    rw [hround, hvalue]

theorem run_items (given : String) (hsite : site.Scoped)
    (hx : m.extend bound active site.item .empty element = .ok chain)
    (hcalls : ∀ r ∈ allCalls (chain.toStmts site.item.place site.item.path),
      (p.recordCheck? r).isSome)
    (hsteps : site.place.steps cs = steps) (hpath : site.path.eval given cs.get = path)
    {rest : List Value} (ih : ∀ u ∈ rest, m.Simulates p ts n u) (before : List Value) (s : State)
    (hs : Counters.Agree site.depth cs s.counters)
    (hslot : s.value.slot? steps = some (.array (before ++ rest))) :
    match m.visitItems ts element path before.length rest with
    | .error e => (List.range' before.length rest.length).foldlM (fun s i =>
        runAll ⟨ts, p.checkRecord ts n, given⟩ (chain.toStmts site.item.place site.item.path)
          { s with counters := s.counters.put site.depth i }) s = .error e
    | .ok ws => ∃ cs', Counters.Agree site.depth cs cs' ∧
        (List.range' before.length rest.length).foldlM (fun s i =>
          runAll ⟨ts, p.checkRecord ts n, given⟩ (chain.toStmts site.item.place site.item.path)
            { s with counters := s.counters.put site.depth i }) s =
          .ok ⟨Value.write (.array (before ++ ws)) steps s.value, cs'⟩ := by
  induction rest generalizing before s with
  | nil =>
    rw [visitItems]
    refine ⟨s.counters, hs, ?_⟩
    rw [Value.write_slot hslot]
    rfl
  | cons u rest ihr =>
    have hround := run_item given hsite hx hcalls hsteps hpath (ih u (by simp)) before s hs hslot
    simp only [visitItems, List.length_cons, List.range'_succ, List.foldlM_cons]
    cases hv : m.visit ts element (path ++ "[" ++ toString before.length ++ "]") u with
    | error e =>
      rw [hv] at hround
      have hround : runAll _ _ _ = .error e := hround
      simp only [bind, Except.bind, hround]
    | ok w =>
      rw [hv] at hround
      obtain ⟨cs', hcs', hround⟩ := hround
      -- the next round begins with the array that this one left
      have hnext := ihr (fun x hx => ih x (by simp [hx])) (before ++ [w.getD u])
        ⟨Value.write (.array (before ++ w.getD u :: rest)) steps s.value, cs'⟩ hcs'
        (by simpa using Value.slot?_write _ hslot)
      simp only [List.length_append, List.length_singleton] at hnext
      simp only [bind, Except.bind, hround]
      cases hvs : m.visitItems ts element path (before.length + 1) rest with
      | error e =>
        rw [hvs] at hnext
        exact hnext
      | ok ws =>
        rw [hvs] at hnext
        obtain ⟨cs'', hcs'', hnext⟩ := hnext
        refine ⟨cs'', hcs'', hnext.trans ?_⟩
        rw [Value.write_write _ _ hslot]
        simp

end

theorem get?_visited {name other : String} {id : NodeId} {path : String} {w : Option Value}
    {fields done : List (String × Value)} (hsep : m.Plain ∨ other ≠ name)
    (hw : m.visit ts id path ((Fields.get? name fields).getD .undefined) = .ok w)
    (h : Fields.get? other done = Fields.get? other fields) :
    Fields.get? other (w.elim done fun w => Fields.put name w done) =
      Fields.get? other fields := by
  cases w with
  | none => exact h
  | some w =>
    simp only [Option.elim]
    by_cases hne : other = name
    · subst hne
      rcases hsep with plain | hne
      · obtain ⟨rfl, hc⟩ := plain.visit hw
        rw [Fields.get?_put_self]
        cases hf : Fields.get? other fields with
        | none => simp [hf, Value.isComposite] at hc
        | some x => rfl
      · exact absurd rfl hne
    · rw [Fields.get?_put_of_ne hne, h]

theorem eval_field (given name : String) (counter : Nat → Nat) :
    (Site.field name).path.eval given counter = given ++ "." ++ name := by
  simp [Site.field, Path.eval, Path.parts, Path.partText, String.append_assoc]

theorem run_field {n : Nat} {v : Value} {name : String} {id : NodeId} {body : List Stmt}
    (given : String) (done : List (String × Value)) (cs : Counters)
    (ih : m.Simulates p ts n ((Fields.get? name v.fields).getD .undefined))
    (hb : m.stmts (.field name) id = .ok body)
    (hcalls : ∀ r ∈ allCalls body, (p.recordCheck? r).isSome)
    (hdone : Fields.get? name done = Fields.get? name v.fields) :
    match m.visit ts id (given ++ "." ++ name) ((Fields.get? name v.fields).getD .undefined) with
    | .error e => runAll ⟨ts, p.checkRecord ts n, given⟩ body ⟨v.withFields done, cs⟩ = .error e
    | .ok w => ∃ cs', runAll ⟨ts, p.checkRecord ts n, given⟩ body ⟨v.withFields done, cs⟩ =
        .ok ⟨v.withFields (w.elim done fun w => Fields.put name w done), cs'⟩ := by
  obtain ⟨chain, hchain, hb⟩ := bind_eq_ok.1 hb
  obtain rfl := Except.ok.inj hb
  have hget : (v.withFields done).get name = (Fields.get? name v.fields).getD .undefined := by
    rw [Value.get_withFields hdone, Value.get_eq_fields]
  have hfield := ih given ⟨v.withFields done, cs⟩ (Site.Scoped.field name) hchain hcalls
    (Nat.zero_le _) hget fun hc => by
      rw [← hget] at hc ⊢
      exact Value.slot?_get hc
  rw [eval_field] at hfield
  cases hv : m.visit ts id (given ++ "." ++ name)
      ((Fields.get? name v.fields).getD .undefined) with
  | error e =>
    rw [hv] at hfield
    exact hfield
  | ok w =>
    rw [hv] at hfield
    obtain ⟨cs', -, hfield⟩ := hfield
    refine ⟨cs', hfield.trans ?_⟩
    cases w with
    | none => rfl
    | some w =>
      have hw : State.settle ⟨v.withFields done, cs⟩ (Site.field name).place (some w) =
          v.withFields (Fields.put name w done) := Value.write_field_withFields v w name done
      rw [hw]
      rfl

theorem run_fields {n : Nat} {v : Value} {members : List (String × NodeId)} {body : List Stmt}
    (given : String) (done : List (String × Value)) (cs : Counters)
    (ih : ∀ name, m.Simulates p ts n ((Fields.get? name v.fields).getD .undefined))
    (hb : m.fieldStmts members = .ok body)
    (hcalls : ∀ r ∈ allCalls body, (p.recordCheck? r).isSome)
    (hsep : m.Plain ∨ (Fields.names members).Nodup)
    (hdone : ∀ name ∈ Fields.names members,
      Fields.get? name done = Fields.get? name v.fields) :
    match m.visitFields ts given v.fields members done with
    | .error e => runAll ⟨ts, p.checkRecord ts n, given⟩ body ⟨v.withFields done, cs⟩ = .error e
    | .ok done' => ∃ cs', runAll ⟨ts, p.checkRecord ts n, given⟩ body ⟨v.withFields done, cs⟩ =
        .ok ⟨v.withFields done', cs'⟩ := by
  induction members generalizing body done cs with
  | nil =>
    obtain rfl := Except.ok.inj hb
    rw [visitFields]
    exact ⟨cs, rfl⟩
  | cons member members ihm =>
    obtain ⟨name, id⟩ := member
    obtain ⟨head, hhead, hb⟩ := bind_eq_ok.1 hb
    obtain ⟨rest, hrest, hb⟩ := bind_eq_ok.1 hb
    obtain rfl := Except.ok.inj hb
    rw [allCalls_append] at hcalls
    have hfield := run_field given done cs (ih name) hhead
      (fun r hr => hcalls r (List.mem_append_left _ hr)) (hdone name (by simp [Fields.names]))
    rw [runAll_append, visitFields]
    cases hv : m.visit ts id (given ++ "." ++ name)
        ((Fields.get? name v.fields).getD .undefined) with
    | error e =>
      rw [hv] at hfield
      have hfield : runAll _ _ _ = .error e := hfield
      simp only [bind, Except.bind, hfield]
    | ok w =>
      rw [hv] at hfield
      obtain ⟨cs', hfield⟩ := hfield
      simp only [bind, Except.bind, hfield]
      refine ihm _ _ hrest (fun r hr => hcalls r (List.mem_append_right _ hr))
        (hsep.imp_right fun h => (List.nodup_cons.1 h).2) ?_
      -- the fields that are left are as they were at first
      intro other hother
      refine get?_visited (hsep.imp_right fun h => ?_) hv (hdone other (by
        simp only [Fields.names, List.map_cons, List.mem_cons]
        exact Or.inr hother))
      rintro rfl
      exact (List.nodup_cons.1 h).1 hother

/-- Statements for the items of an array that are none leave each item as it is. -/
theorem visitItems_of_empty {element : NodeId} {chain : Chain} {site : Site}
    (h : m.Writes site element chain)
    (hempty : (chain.toStmts site.place site.path).isEmpty) (path : String) (i : Nat)
    (items : List Value) : m.visitItems ts element path i items = .ok items := by
  have hb : chain.branches.isEmpty := by
    unfold Chain.toStmts at hempty
    split_ifs at hempty with hb
    · exact hb
    · simp at hempty
  have hc : m.conversion? element = none := by
    unfold Chain.toStmts at hempty
    rw [if_pos hb, h.conversion] at hempty
    cases hc : m.conversion? element with
    | none => rfl
    | some n => simp [hc] at hempty
  have ht : m.tests element = [] := by
    rw [h.isEmpty] at hb
    simpa using hb
  induction items generalizing i with
  | nil => rw [visitItems]
  | cons v vs ih =>
    have hv : ∀ path, m.visit ts element path v = .ok none := by
      intro path
      rw [visit_none (by rw [ht]; rfl), leftover, hc, ht]
      rfl
    rw [visitItems, hv, ih]
    rfl

theorem does_array {site : Site} {n : Nat} {b : Branch} {element : NodeId} {given : String}
    {s : State} {items : List Value} (flat : m.Flat) (hsite : site.Scoped)
    (hb : m.HasBody site b (.array (some element)))
    (hcalls : ∀ r ∈ allCalls b.body, (p.recordCheck? r).isSome)
    (ih : ∀ u ∈ items, m.Simulates p ts n u) (hlen : site.depth ≤ s.counters.length)
    (hslot : s.value.slot? (site.place.steps s.counters) = some (.array items)) :
    Does ⟨ts, p.checkRecord ts n, given⟩ site b.body s
      ((m.visitItems ts element (site.path.eval given s.counters.get) 0 items).map
        fun ws => some (.array ws)) := by
  obtain ⟨bound, active, chain, hx, hbody⟩ := hb
  rw [hbody] at hcalls ⊢
  unfold loop at hcalls ⊢
  split_ifs at hcalls ⊢ with hempty
  · rw [visitItems_of_empty (.of_extend flat hx) hempty]
    refine ⟨s.counters, .refl hlen, ?_⟩
    rw [State.settle, Value.write_slot hslot]
    rfl
  · have hread : s.read site.place = .array items := Place.read_of_slot? hslot
    have hagree : Counters.Agree site.depth s.counters (s.counters.reach site.depth) :=
      .reach hlen
    have hrounds := run_items given hsite hx
      (fun r hr => hcalls r (by simpa [allCalls, Stmt.calls] using hr)) rfl rfl ih []
      { s with counters := s.counters.reach site.depth } hagree hslot
    simp only [List.length_nil, List.nil_append, ← List.range_eq_range'] at hrounds
    cases hv : m.visitItems ts element (site.path.eval given s.counters.get) 0 items with
    | error e =>
      rw [hv] at hrounds
      simp only [Except.map, Does, runAll_singleton, Stmt.run, hread, Value.length]
      exact hrounds
    | ok ws =>
      rw [hv] at hrounds
      obtain ⟨cs, hcs, hrounds⟩ := hrounds
      refine ⟨cs, hcs, ?_⟩
      simp only [runAll_singleton, Stmt.run, hread, Value.length]
      exact hrounds

theorem does_record {site : Site} {n : Nat} {b : Branch} {record : RecordId}
    {members : List (String × NodeId)} {given : String} {s : State} {v : Value}
    (covers : m.Covers p) (hb : m.HasBody site b (.record record members))
    (hmembers : m.recordMembers? record = some members)
    (hsep : m.Plain ∨ (Fields.names members).Nodup)
    (hcalls : ∀ r ∈ allCalls b.body, (p.recordCheck? r).isSome)
    (ih : ∀ name, m.Simulates p ts n ((Fields.get? name v.fields).getD .undefined))
    (hlen : site.depth ≤ s.counters.length)
    (hslot : s.value.slot? (site.place.steps s.counters) = some v) :
    Does ⟨ts, p.checkRecord ts (n + 1), given⟩ site b.body s
      ((m.visitFields ts (site.path.eval given s.counters.get) v.fields members v.fields).map
        v.withFields?) := by
  have hbody : b.body = [.call record site.place site.path.folded] := hb
  rw [hbody] at hcalls ⊢
  obtain ⟨check, hcheck⟩ := Option.isSome_iff_exists.1 (hcalls record (by
    simp [allCalls, Stmt.calls]))
  obtain ⟨⟨ms, hms, hfields⟩, hinner⟩ := covers record check hcheck
  obtain rfl : members = ms := Option.some.inj (hmembers.symm.trans hms)
  have hrun := run_fields (site.path.eval given s.counters.get) v.fields [] ih hfields hinner hsep
    fun _ _ => rfl
  rw [Value.withFields_fields] at hrun
  -- the check runs on what is in the slot, and what it returns is put there
  have hcall : runAll ⟨ts, p.checkRecord ts (n + 1), given⟩
        [.call record site.place site.path.folded] s =
      (runAll ⟨ts, p.checkRecord ts n, site.path.eval given s.counters.get⟩ check.body
        ⟨v, []⟩).map fun t =>
          { s with value := Value.write t.value (site.place.steps s.counters) s.value } := by
    simp only [runAll_singleton, Stmt.run, State.call, Program.checkRecord, hcheck,
      Option.map_some, hslot, State.pathText, Path.eval_folded]
    cases runAll _ check.body ⟨v, []⟩ <;> rfl
  cases hv : m.visitFields ts (site.path.eval given s.counters.get) v.fields members v.fields with
  | error e =>
    rw [hv] at hrun
    simp only [Except.map, Does, hcall, hrun]
  | ok done =>
    rw [hv] at hrun
    obtain ⟨cs, hrun⟩ := hrun
    refine ⟨s.counters, .refl hlen, ?_⟩
    rw [hcall, hrun]
    cases v with
    | object fields => rfl
    | _ => simp [Except.map, Value.withFields?, Value.withFields, State.settle,
        Value.write_slot hslot]

theorem does_untested {site : Site} {n : Nat} {id : NodeId} {chain : Chain} {given : String}
    {s : State} {v : Value} (hw : m.Writes site id chain) (hempty : (m.tests id).isEmpty = true)
    (hlen : site.depth ≤ s.counters.length) (hread : s.read site.place = v) :
    Does ⟨ts, p.checkRecord ts n, given⟩ site (chain.toStmts site.place site.path) s
      (m.visit ts id (site.path.eval given s.counters.get) v) := by
  have hnone : (m.tests id).find? (·.admits v) = none := by
    rw [List.isEmpty_iff.1 hempty]
    rfl
  have hb : chain.branches.isEmpty := by rw [hw.isEmpty, hempty]
  rw [visit_none hnone, leftover, Chain.toStmts, if_pos hb, hw.conversion, hempty]
  cases m.conversion? id with
  | none => exact ⟨s.counters, .refl hlen, rfl⟩
  | some c =>
    simp only [Does, runAll_singleton, Stmt.run, State.convert_eq, hread]
    cases ts.apply c v with
    | error e => rfl
    | ok w => exact ⟨s.counters, .refl hlen, rfl⟩

/-- The branch of the first test that holds does what a visit says, if what is written for less
deep values does. -/
theorem does_branch {site : Site} {n : Nat} {id : NodeId} {b : Branch} {k : NodeKind}
    {given : String} {s : State} {v : Value} (flat : m.Flat) (numbered : m.Numbered)
    (separate : m.Separate) (covers : m.Covers p) (hsite : site.Scoped)
    (hf : (m.tests id).find? (·.admits v) = some k) (hbody : m.HasBody site b k)
    (hcalls : ∀ r ∈ allCalls b.body, (p.recordCheck? r).isSome) (hv : v.depth ≤ n)
    (ih : ∀ u n', u.depth < v.depth → u.depth ≤ n' → m.Simulates p ts n' u)
    (hlen : site.depth ≤ s.counters.length)
    (hslot : v.isComposite → s.value.slot? (site.place.steps s.counters) = some v) :
    Does ⟨ts, p.checkRecord ts n, given⟩ site b.body s
      (m.visit ts id (site.path.eval given s.counters.get) v) := by
  obtain ⟨element, items, rfl, rfl⟩ | ⟨record, members, x, rfl, hc, hx⟩ | ⟨ha, hr⟩ :=
    tested_cases hf
  · rw [visit_array hf]
    refine does_array flat hsite hbody hcalls (fun u hu => ?_) hlen (hslot rfl)
    have hdepth := Value.depth_lt_array hu
    exact @ih u n hdepth (by omega)
  · have hdepth : ∀ name, ((Fields.get? name v.fields).getD .undefined).depth < v.depth :=
      Value.depth_get_lt hc
    cases n with
    | zero =>
      have := hdepth ""
      omega
    | succ n =>
      rw [visit_record hf]
      refine does_record covers hbody (numbered x _ _ hx)
        (separate.imp_right fun h => h x _ _ hx) hcalls (fun name => ?_) hlen (hslot hc)
      have := hdepth name
      exact @ih _ n this (by omega)
  · rw [visit_leaf hf ha hr]
    have hnil : b.body = [] := (hasBody_leaf ha hr).1 hbody
    exact ⟨s.counters, .refl hlen, by rw [hnil]; rfl⟩

/-- Running what is written for a node does what a visit of it says. -/
theorem simulates (flat : m.Flat) (numbered : m.Numbered) (separate : m.Separate)
    (covers : m.Covers p) {n : Nat} {v : Value} (hv : v.depth ≤ n) : m.Simulates p ts n v := by
  induction hd : v.depth using Nat.strongRecOn generalizing v n with
  | _ d ih =>
    subst hd
    intro site bound active id chain given s hsite hx hcalls hlen hread hslot
    have hw : m.Writes site id chain := .of_extend flat hx
    cases hempty : (m.tests id).isEmpty with
    | true => exact does_untested hw hempty hlen hread
    | false =>
      have hb : chain.branches.isEmpty = false := by rw [hw.isEmpty, hempty]
      rw [Chain.toStmts, if_neg (by simp [hb])] at hcalls ⊢
      simp only [allCalls, Stmt.calls, List.append_nil] at hcalls
      -- the first test that holds, or none
      rcases runBranches_eq ⟨ts, p.checkRecord ts n, given⟩
          (chain.otherwise site.place site.path) s hw.branches isTest_of_mem_tests with
        ⟨hf, hrun⟩ | ⟨k, b, hf, hk, hmem, hrun⟩
      · have hfall := hw.fallback hempty ⟨ts, p.checkRecord ts n, given⟩ s
        rw [← hread, visit_none hf]
        simp only [State.pathText] at hfall
        cases hl : m.leftover ts id (site.path.eval given s.counters.get)
            (s.read site.place) with
        | error e => simp only [Does, runAll_singleton, Stmt.run, hrun, hfall, hl, Except.map]
        | ok w =>
          refine ⟨s.counters, .refl hlen, ?_⟩
          simp only [runAll_singleton, Stmt.run, hrun, hfall, hl, Except.map]
      · have hrun' : ∀ r, Does ⟨ts, p.checkRecord ts n, given⟩ site b.body s r →
            Does ⟨ts, p.checkRecord ts n, given⟩ site
              [.check chain.branches (chain.otherwise site.place site.path)] s r := by
          intro r
          cases r <;> simp only [Does, runAll_singleton, Stmt.run, hrun] <;> exact fun h => h
        rw [hread] at hf
        exact hrun' _ (does_branch flat numbered separate covers hsite hf hk.body
          (fun r hr => hcalls r (mem_branchCalls hmem hr)) hv (fun u n' hu hn => ih _ hu hn rfl)
          hlen hslot)

end

end Model

end Conform
