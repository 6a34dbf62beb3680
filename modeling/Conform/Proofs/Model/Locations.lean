import Mathlib.Data.List.Nodup
import Conform.Proofs.Model.Looking
import Conform.Proofs.Model.Safety
import Conform.Proofs.Program.Locations

/-! Where a value fails the checks of a node. The path that a run fails with is the text of the
location, and what the run looked at last is there. If fields can be told apart in texts, a path
stands for one location only. -/

namespace Conform.Model

/-- Whether a value fails the checks of a node at a location inside it: on the way there the values
pass the test of an array or of a record before any other. -/
inductive FailsAt (m : Model) : NodeId → Value → List Step → Prop
  | here {id : NodeId} {v : Value} : (m.tests id).find? (·.admits v) = none → FailsAt m id v []
  | item {id element : NodeId} {items : List Value} {i : Nat} {u : Value} {l : List Step} :
      (m.tests id).find? (·.admits (.array items)) = some (.array (some element)) →
      items[i]? = some u → FailsAt m element u l → FailsAt m id (.array items) (.item (some i) :: l)
  | field {id : NodeId} {v : Value} {record : RecordId} {members : List (String × NodeId)}
      {f : String × NodeId} {l : List Step} :
      (m.tests id).find? (·.admits v) = some (.record record members) → f ∈ members →
      FailsAt m f.2 (v.get f.1) l → FailsAt m id v (.field f.1 :: l)

/-- Whether the fields of each record can be told apart in texts. -/
def Readable (m : Model) : Prop :=
  ∀ id record members, m.kind id = .record record members →
    Conform.Readable (Fields.names members)

section

variable {m : Model} {id : NodeId} {v w : Value}

theorem find?_array {k k' : NodeKind} {items items' : List Value}
    (h : (m.tests id).find? (·.admits (.array items)) = some k)
    (h' : (m.tests id).find? (·.admits (.array items')) = some k') : k = k' := by
  have hsame : (fun k : NodeKind => k.admits (.array items)) = (·.admits (.array items')) := by
    funext k
    cases k with
    | literal value => cases value <;> rfl
    | _ => rfl
  rw [hsame] at h
  exact Option.some.inj (h.symm.trans h')

theorem find?_record {r r' : RecordId} {members members' : List (String × NodeId)}
    (h : (m.tests id).find? (·.admits v) = some (.record r members))
    (h' : (m.tests id).find? (·.admits w) = some (.record r' members')) :
    members = members' := by
  -- it is the first that all objects and arrays pass
  have hfirst : ∀ {v r members}, (m.tests id).find? (·.admits v) = some (.record r members) →
      (m.tests id).find? (·.admits (.object [])) = some (.record r members) := by
    intro v r members h
    obtain ⟨hadm, as, bs, hsplit, has⟩ := List.find?_eq_some_iff_append.1 h
    refine List.find?_eq_some_iff_append.2 ⟨rfl, as, bs, hsplit, fun k hk => ?_⟩
    have hnot := has k hk
    cases k with
    | literal value => cases value <;> rfl
    | object =>
      have hfalse : NodeKind.object.admits v = false := by simpa using hnot
      cases hfalse.symm.trans hadm
    | record r' members' =>
      have hfalse : (NodeKind.record r' members').admits v = false := by simpa using hnot
      cases hfalse.symm.trans hadm
    | _ => rfl
  cases (hfirst h).symm.trans (hfirst h')
  rfl

theorem Readable.tells (readable : m.Readable) {r : RecordId} {members : List (String × NodeId)}
    (h : (m.tests id).find? (·.admits v) = some (.record r members)) {f g : String × NodeId}
    (hf : f ∈ members) (hg : g ∈ members) {l l' : List Step}
    (htext : locationText (.field f.1 :: l) = locationText (.field g.1 :: l')) : f = g := by
  obtain ⟨x, hx⟩ := exists_kind_of_mem_parts
    (List.mem_filter.1 (List.mem_of_find?_eq_some h)).1
  have hnames := readable x r members hx.symm
  refine List.inj_on_of_nodup_map hnames.nodup hf hg ?_
  by_contra hne
  have hapart : Apart f.1 g.1 :=
    List.Pairwise.forall hnames (List.mem_map_of_mem hf) (List.mem_map_of_mem hg) hne
  rw [locationText_cons, locationText_cons, Step.text, Step.text, String.append_assoc,
    String.append_assoc, String.append_right_inj] at htext
  obtain ⟨k, hk | hk⟩ := exists_location_of_append htext
  · exact (hapart k).1 hk
  · exact (hapart k).2 hk

/-- Values that fail the checks of one node at locations of one text fail them at the same place. -/
theorem FailsAt.unique (readable : m.Readable) {l l' : List Step} (h : m.FailsAt id v l)
    (h' : m.FailsAt id w l') (htext : locationText l = locationText l') : l = l' := by
  induction h generalizing w l' with
  | here =>
    cases h' with
    | here => rfl
    | item | field => exact (locationText_cons_ne_nil _ _ htext.symm).elim
  | item hf _ _ ih =>
    cases h' with
    | here => exact (locationText_cons_ne_nil _ _ htext).elim
    | item hf' _ hfails =>
      cases find?_array hf hf'
      rw [locationText_cons, locationText_cons] at htext
      obtain ⟨rfl, hrest⟩ := item_append_inj htext
      rw [ih hfails hrest]
    | field => exact (locationText_item_ne_field htext).elim
  | field hf hmem _ ih =>
    cases h' with
    | here => exact (locationText_cons_ne_nil _ _ htext).elim
    | item => exact (locationText_item_ne_field htext.symm).elim
    | field hf' hmem' hfails =>
      cases find?_record hf hf'
      obtain rfl := readable.tells hf hmem hmem' htext
      rw [locationText_cons, locationText_cons, String.append_right_inj] at htext
      rw [ih hfails htext]

end

/-! ### Runs -/

/-- Whether a path leads on from `start` to where a value fails, and the last look is there. -/
def Points (m : Model) (id : NodeId) (v : Value) (steps : List Step) (start path : String)
    (ls : List Look) : Prop :=
  ∃ l look, m.FailsAt id v l ∧ path = start ++ locationText l ∧ ls.getLast? = some look ∧
    look.steps = steps ++ l

/-- Whether runs of what is written for nodes that fail with a path point to where a value fails,
with up to `n` record checks inside each other. -/
def Pointed (m : Model) (p : Program) (ts : Transforms) (n : Nat) (v : Value) : Prop :=
  ∀ {site : Site} {bound : Nat} {active : List NodeId} {id : NodeId} {chain : Chain}
    (given : String) (s : State), site.Scoped →
    m.extend bound active site .empty id = .ok chain →
    (∀ r ∈ allCalls (chain.toStmts site.place site.path), (p.recordCheck? r).isSome) →
    site.depth ≤ s.counters.length → s.read site.place = v →
    (v.isComposite → s.value.slot? (site.place.steps s.counters) = some v) →
    ∀ {path : String} {expected : List String},
      runAll ⟨ts, p.checkRecord ts n, given⟩ (chain.toStmts site.place site.path) s =
        .error (.mismatch path expected) →
      m.Points id v (site.place.steps s.counters) (site.path.eval given s.counters.get) path
        (allLooks ⟨ts, p.checkRecord ts n, given⟩ (p.recordLooks ts n)
          (chain.toStmts site.place site.path) s)

section

variable {m : Model} {p : Program} {ts : Transforms} {id : NodeId} {v : Value} {n : Nat}
  {steps : List Step} {start path given : String} {expected : List String} {s : State}
  {ls : List Look}

theorem getLast?_append_of_some {α : Type _} {ys : List α} {y : α} (xs : List α)
    (h : ys.getLast? = some y) : (xs ++ ys).getLast? = some y := by
  rw [List.getLast?_append, h, Option.some_or]

theorem Points.append (h : m.Points id v steps start path ls) (xs : List Look) :
    m.Points id v steps start path (xs ++ ls) := by
  obtain ⟨l, look, hfails, hpath, hlast, hsteps⟩ := h
  exact ⟨l, look, hfails, hpath, getLast?_append_of_some _ hlast, hsteps⟩

/-- The branch of the first test that holds is run, and looked at last. Without one all tests are
looked at, and then what the fallback looks at. -/
theorem branchLooks_eq (env : Env) (looks : RecordId → String → Value → List Look)
    (otherwise : Fallback) (s : State) {site : Site} {ks : List NodeKind} {bs : List Branch}
    (h : List.Forall₂ (m.IsBranch site) ks bs) (hk : ∀ k ∈ ks, k.isTest) :
    (ks.find? (·.admits (s.read site.place)) = none ∧
        runBranches env otherwise bs s = s.fallback env otherwise ∧
        branchLooks env looks otherwise bs s =
          bs.map (fun b => s.look (.test b.test) b.test.place) ++ otherwise.looks s) ∨
      ∃ k b xs, ks.find? (·.admits (s.read site.place)) = some k ∧ m.IsBranch site k b ∧
        b ∈ bs ∧ runBranches env otherwise bs s = runAll env b.body s ∧
        branchLooks env looks otherwise bs s = xs ++ allLooks env looks b.body s := by
  induction h with
  | nil => exact Or.inl ⟨rfl, rfl, rfl⟩
  | @cons k b ks bs hkb h ih =>
    obtain ⟨label, test, body⟩ := b
    have htest : test = k.test site.place := hkb.test
    have hholds := NodeKind.holds_test (hk k (by simp)) s site.place
    rw [← htest] at hholds
    simp only [branchLooks, runBranches, hholds, List.find?_cons]
    cases hadm : k.admits (s.read site.place) with
    | true => exact Or.inr ⟨k, .mk label test body, [_], rfl, hkb, by simp, rfl, rfl⟩
    | false =>
      rcases ih fun k hk' => hk k (by simp [hk']) with
        ⟨hnone, hrun, hlooks⟩ | ⟨k', b', xs, hsome, hb', hmem, hrun, hxs⟩
      · exact Or.inl ⟨hnone, by simpa using hrun, by simp [hlooks, Branch.test]⟩
      · exact Or.inr ⟨k', b', s.look (.test test) test.place :: xs, hsome, hb', by simp [hmem],
          by simpa using hrun, by simp [hxs]⟩

theorem Points.here {site : Site} {bs : List Branch}
    (h : List.Forall₂ (m.IsBranch site) (m.tests id) bs) (hne : bs ≠ [])
    (hf : (m.tests id).find? (·.admits v) = none) (start : String) :
    m.Points id v (site.place.steps s.counters) start start
      (bs.map fun b => s.look (.test b.test) b.test.place) := by
  obtain ⟨b, hb⟩ := List.getLast?_isSome.2 hne |> Option.isSome_iff_exists.1
  obtain ⟨k, -, hkb⟩ := exists_of_mem_right h (List.mem_of_getLast? hb)
  refine ⟨[], s.look (.test b.test) b.test.place, .here hf, by simp, ?_, ?_⟩
  · rw [List.getLast?_map, hb]
    rfl
  · rw [hkb.test, NodeKind.place_test, List.append_nil]
    rfl

section

variable {site : Site} {bound : Nat} {active : List NodeId} {element : NodeId} {chain : Chain}
  {cs : Counters}

theorem round_unchanged (plain : m.Plain) (given : String) (hsite : site.Scoped)
    (hx : m.extend bound active site.item .empty element = .ok chain)
    (hcalls : ∀ r ∈ allCalls (chain.toStmts site.item.place site.item.path),
      (p.recordCheck? r).isSome)
    (hsteps : site.place.steps cs = steps) (hpath : site.path.eval given cs.get = start)
    {u : Value} {rest : List Value} (sim : m.Simulates p ts n u) (before : List Value) (s : State)
    (hs : Counters.Agree site.depth cs s.counters)
    (hslot : s.value.slot? steps = some (.array (before ++ u :: rest))) {t : State}
    (hrun : runAll ⟨ts, p.checkRecord ts n, given⟩ (chain.toStmts site.item.place site.item.path)
      { s with counters := s.counters.put site.depth before.length } = .ok t) :
    ∃ cs', Counters.Agree site.depth cs cs' ∧ t = ⟨s.value, cs'⟩ := by
  have hround := run_item given hsite hx hcalls hsteps hpath sim before s hs hslot
  cases hv : m.visit ts element (start ++ "[" ++ toString before.length ++ "]") u with
  | error e =>
    rw [hv] at hround
    cases hrun.symm.trans hround
  | ok w =>
    rw [hv] at hround
    obtain ⟨cs', hcs', hround⟩ := hround
    rw [(plain.visit hv).getD, Value.write_slot hslot] at hround
    exact ⟨cs', hcs', Except.ok.inj (hrun.symm.trans hround)⟩

theorem points_rounds (plain : m.Plain) (given : String) (hsite : site.Scoped)
    (hx : m.extend bound active site.item .empty element = .ok chain)
    (hcalls : ∀ r ∈ allCalls (chain.toStmts site.item.place site.item.path),
      (p.recordCheck? r).isSome)
    (hsteps : site.place.steps cs = steps) (hpath : site.path.eval given cs.get = start)
    {rest : List Value} (ih : ∀ u ∈ rest, m.Pointed p ts n u)
    (sim : ∀ u ∈ rest, m.Simulates p ts n u) (before : List Value) (s : State)
    (hs : Counters.Agree site.depth cs s.counters)
    (hslot : s.value.slot? steps = some (.array (before ++ rest))) (length : Nat)
    (hrun : (List.range' before.length rest.length).foldlM (fun s i =>
        runAll ⟨ts, p.checkRecord ts n, given⟩ (chain.toStmts site.item.place site.item.path)
          { s with counters := s.counters.put site.depth i }) s =
      .error (.mismatch path expected)) :
    ∃ i u l look, (before ++ rest)[i]? = some u ∧ m.FailsAt element u l ∧
      path = start ++ locationText (.item (some i) :: l) ∧
      (roundLooks site.place site.depth length
        (allLooks ⟨ts, p.checkRecord ts n, given⟩ (p.recordLooks ts n)
          (chain.toStmts site.item.place site.item.path))
        (runAll ⟨ts, p.checkRecord ts n, given⟩ (chain.toStmts site.item.place site.item.path))
        (List.range' before.length rest.length) s).getLast? = some look ∧
      look.steps = steps ++ .item (some i) :: l := by
  induction rest generalizing before s with
  | nil => cases hrun
  | cons u rest ihr =>
    -- the state at the start of the round, and where the item is in it
    set t : State := { s with counters := s.counters.put site.depth before.length } with ht
    have hput : Counters.Agree site.depth cs t.counters :=
      hs.trans (Counters.Agree.put hs.length_le _)
    have hitem : site.item.place.steps t.counters = steps ++ [.item (some before.length)] :=
      hsite.steps_item hsteps hs _
    have hu : t.value.slot? (site.item.place.steps t.counters) = some u :=
      hsite.slot?_item hsteps hs hslot
    rw [List.length_cons, List.range'_succ, List.foldlM_cons] at hrun
    rw [List.length_cons, List.range'_succ, roundLooks]
    rcases bind_eq_error.1 hrun with hbody | ⟨t', hbody, hrest⟩
    · obtain ⟨l, look, hfails, hl, hlast, hat⟩ := ih u (by simp) given t hsite.item hx hcalls
        (Counters.length_le_put _ _) (Place.read_of_slot? hu) (fun _ => hu) hbody
      rw [eval_item hsite hput (Counters.getElem?_put _ _), hpath] at hl
      refine ⟨before.length, u, l, look, by simp, hfails, ?_, ?_, ?_⟩
      · rw [hl, locationText_cons, Step.text]
        simp only [String.append_assoc]
      · rw [hbody, List.append_nil]
        exact getLast?_append_of_some [_] hlast
      · rw [hat, hitem, List.append_assoc]
        rfl
    · obtain ⟨cs', hcs', rfl⟩ := round_unchanged plain given hsite hx hcalls hsteps hpath
        (sim u (by simp)) before s hs hslot hbody
      obtain ⟨i, x, l, look, hi, hfails, hl, hlast, hat⟩ := ihr
        (fun x hx => ih x (by simp [hx])) (fun x hx => sim x (by simp [hx])) (before ++ [u])
        ⟨s.value, cs'⟩ hcs' (by simpa using hslot) (by simpa using hrest)
      refine ⟨i, x, l, look, by simpa using hi, hfails, hl, ?_, hat⟩
      rw [hbody]
      refine getLast?_append_of_some (_ :: _) ?_
      simpa using hlast

theorem points_array {b : Branch} {items : List Value} (plain : m.Plain) (hsite : site.Scoped)
    (hf : (m.tests id).find? (·.admits (.array items)) = some (.array (some element)))
    (hb : m.HasBody site b (.array (some element)))
    (hcalls : ∀ r ∈ allCalls b.body, (p.recordCheck? r).isSome)
    (ih : ∀ u ∈ items, m.Pointed p ts n u) (sim : ∀ u ∈ items, m.Simulates p ts n u)
    (hlen : site.depth ≤ s.counters.length)
    (hslot : s.value.slot? (site.place.steps s.counters) = some (.array items))
    (hrun : runAll ⟨ts, p.checkRecord ts n, given⟩ b.body s = .error (.mismatch path expected)) :
    m.Points id (.array items) (site.place.steps s.counters)
      (site.path.eval given s.counters.get) path
      (allLooks ⟨ts, p.checkRecord ts n, given⟩ (p.recordLooks ts n) b.body s) := by
  obtain ⟨bound, active, chain, hx, hbody⟩ := hb
  rw [hbody] at hcalls hrun ⊢
  unfold loop at hcalls hrun ⊢
  split_ifs at hcalls hrun ⊢
  · cases hrun
  · have hread : s.read site.place = .array items := Place.read_of_slot? hslot
    rw [runAll_singleton, Stmt.run, hread, Value.length, List.range_eq_range'] at hrun
    obtain ⟨i, u, l, look, hi, hfails, hl, hlast, hat⟩ := points_rounds plain given hsite hx
      (fun r hr => hcalls r (by simpa [allCalls, Stmt.calls] using hr)) rfl rfl ih sim []
      { s with counters := s.counters.reach site.depth } (.reach hlen) hslot items.length hrun
    refine ⟨.item (some i) :: l, look.within ⟨site.place.steps s.counters, items.length⟩,
      .item hf hi hfails, hl, ?_, hat⟩
    rw [allLooks_singleton, Stmt.looks]
    simp only [hread, Value.length, List.range_eq_range']
    refine getLast?_append_of_some [_] ?_
    rw [List.getLast?_map]
    exact congrArg (Option.map _) hlast

end

theorem field_unchanged {name : String} {body : List Stmt} (plain : m.Plain) (given : String)
    (cs : Counters) (sim : m.Simulates p ts n ((Fields.get? name v.fields).getD .undefined))
    (hb : m.stmts (.field name) id = .ok body)
    (hcalls : ∀ r ∈ allCalls body, (p.recordCheck? r).isSome) {t : State}
    (hrun : runAll ⟨ts, p.checkRecord ts n, given⟩ body ⟨v, cs⟩ = .ok t) :
    ∃ cs', t = ⟨v, cs'⟩ := by
  have hfield := run_field given v.fields cs sim hb hcalls rfl
  rw [Value.withFields_fields] at hfield
  cases hv : m.visit ts id (given ++ "." ++ name) ((Fields.get? name v.fields).getD .undefined) with
  | error e =>
    rw [hv] at hfield
    cases hrun.symm.trans hfield
  | ok w =>
    rw [hv] at hfield
    obtain ⟨cs', hfield⟩ := hfield
    rw [(plain.visit hv).put, Value.withFields_fields] at hfield
    exact ⟨cs', Except.ok.inj (hrun.symm.trans hfield)⟩

theorem points_field {name : String} {body : List Stmt} (given : String) (cs : Counters)
    (ih : m.Pointed p ts n ((Fields.get? name v.fields).getD .undefined))
    (hb : m.stmts (.field name) id = .ok body)
    (hcalls : ∀ r ∈ allCalls body, (p.recordCheck? r).isSome)
    (hrun : runAll ⟨ts, p.checkRecord ts n, given⟩ body ⟨v, cs⟩ =
      .error (.mismatch path expected)) :
    ∃ l look, m.FailsAt id (v.get name) l ∧ path = given ++ locationText (.field name :: l) ∧
      (allLooks ⟨ts, p.checkRecord ts n, given⟩ (p.recordLooks ts n) body ⟨v, cs⟩).getLast? =
        some look ∧ look.steps = .field name :: l := by
  obtain ⟨chain, hchain, hb⟩ := bind_eq_ok.1 hb
  obtain rfl := Except.ok.inj hb
  have hget : v.get name = (Fields.get? name v.fields).getD .undefined :=
    Value.get_eq_fields v name
  obtain ⟨l, look, hfails, hl, hlast, hat⟩ := ih given ⟨v, cs⟩ (Site.Scoped.field name) hchain
    hcalls (Nat.zero_le _) hget
    (fun hc => by rw [← hget] at hc ⊢; exact Value.slot?_get hc) hrun
  refine ⟨l, look, by rwa [hget], ?_, hlast, hat⟩
  rw [hl, eval_field, locationText_cons, Step.text]
  simp only [String.append_assoc]

theorem points_fields (plain : m.Plain) (given : String) (cs : Counters)
    {members : List (String × NodeId)} {body : List Stmt}
    (ih : ∀ name, m.Pointed p ts n ((Fields.get? name v.fields).getD .undefined))
    (sim : ∀ name, m.Simulates p ts n ((Fields.get? name v.fields).getD .undefined))
    (hb : m.fieldStmts members = .ok body)
    (hcalls : ∀ r ∈ allCalls body, (p.recordCheck? r).isSome)
    (hrun : runAll ⟨ts, p.checkRecord ts n, given⟩ body ⟨v, cs⟩ =
      .error (.mismatch path expected)) :
    ∃ f ∈ members, ∃ l look, m.FailsAt f.2 (v.get f.1) l ∧
      path = given ++ locationText (.field f.1 :: l) ∧
      (allLooks ⟨ts, p.checkRecord ts n, given⟩ (p.recordLooks ts n) body ⟨v, cs⟩).getLast? =
        some look ∧ look.steps = .field f.1 :: l := by
  induction members generalizing body cs with
  | nil =>
    obtain rfl := Except.ok.inj hb
    cases hrun
  | cons member members ihm =>
    obtain ⟨name, id⟩ := member
    obtain ⟨head, hhead, hb⟩ := bind_eq_ok.1 hb
    obtain ⟨rest, hrest, hb⟩ := bind_eq_ok.1 hb
    obtain rfl := Except.ok.inj hb
    rw [allCalls_append] at hcalls
    have hheads : ∀ r ∈ allCalls head, (p.recordCheck? r).isSome :=
      fun r hr => hcalls r (List.mem_append_left _ hr)
    rw [runAll_append] at hrun
    rw [allLooks_append]
    rcases bind_eq_error.1 hrun with hfield | ⟨t, hfield, hrun⟩
    · obtain ⟨l, look, hfails, hl, hlast, hat⟩ :=
        points_field given cs (ih name) hhead hheads hfield
      refine ⟨(name, id), by simp, l, look, hfails, hl, ?_, hat⟩
      rw [hfield, List.append_nil]
      exact hlast
    · obtain ⟨cs', rfl⟩ := field_unchanged plain given cs (sim name) hhead hheads hfield
      obtain ⟨f, hf, l, look, hfails, hl, hlast, hat⟩ :=
        ihm cs' hrest (fun r hr => hcalls r (List.mem_append_right _ hr)) hrun
      refine ⟨f, by simp [hf], l, look, hfails, hl, ?_, hat⟩
      rw [hfield]
      exact getLast?_append_of_some _ hlast

theorem points_record {site : Site} {b : Branch} {record : RecordId}
    {members : List (String × NodeId)} (plain : m.Plain) (covers : m.Covers p)
    (hf : (m.tests id).find? (·.admits v) = some (.record record members))
    (hb : m.HasBody site b (.record record members))
    (hmembers : m.recordMembers? record = some members)
    (hcalls : ∀ r ∈ allCalls b.body, (p.recordCheck? r).isSome)
    (ih : ∀ name, m.Pointed p ts n ((Fields.get? name v.fields).getD .undefined))
    (sim : ∀ name, m.Simulates p ts n ((Fields.get? name v.fields).getD .undefined))
    (hslot : s.value.slot? (site.place.steps s.counters) = some v)
    (hrun : runAll ⟨ts, p.checkRecord ts (n + 1), given⟩ b.body s =
      .error (.mismatch path expected)) :
    m.Points id v (site.place.steps s.counters) (site.path.eval given s.counters.get) path
      (allLooks ⟨ts, p.checkRecord ts (n + 1), given⟩ (p.recordLooks ts (n + 1)) b.body s) := by
  have hbody : b.body = [.call record site.place site.path.folded] := hb
  rw [hbody] at hcalls hrun ⊢
  obtain ⟨check, hcheck⟩ := Option.isSome_iff_exists.1 (hcalls record (by
    simp [allCalls, Stmt.calls]))
  obtain ⟨⟨ms, hms, hfields⟩, hinner⟩ := covers record check hcheck
  obtain rfl : members = ms := Option.some.inj (hmembers.symm.trans hms)
  simp only [runAll_singleton, Stmt.run, State.call, Program.checkRecord, hcheck, Option.map_some,
    hslot, State.pathText, Path.eval_folded] at hrun
  rcases bind_eq_error.1 hrun with hrun | ⟨_, -, hrun⟩
  · rcases bind_eq_error.1 hrun with hrun | ⟨_, -, hrun⟩
    · obtain ⟨f, hfm, l, look, hfails, hl, hlast, hat⟩ :=
        points_fields plain _ [] ih sim hfields hinner hrun
      refine ⟨.field f.1 :: l, look.inside s (site.place.steps s.counters),
        .field hf hfm hfails, hl, ?_, by rw [Look.steps_inside, hat]⟩
      rw [allLooks_singleton, Stmt.looks, State.callLooks, hslot]
      simp only [Program.recordLooks, hcheck, State.pathText, Path.eval_folded]
      refine getLast?_append_of_some [_] ?_
      rw [List.getLast?_map]
      exact congrArg (Option.map _) hlast
    · cases hrun
  · cases hrun

theorem points_branch {site : Site} {k : NodeKind} {b : Branch} (flat : m.Flat)
    (numbered : m.Numbered) (plain : m.Plain) (covers : m.Covers p) (hv : v.depth ≤ n)
    (ih : ∀ u n', u.depth < v.depth → u.depth ≤ n' → m.Pointed p ts n' u) (hsite : site.Scoped)
    (hf : (m.tests id).find? (·.admits v) = some k) (hb : m.HasBody site b k)
    (hcalls : ∀ r ∈ allCalls b.body, (p.recordCheck? r).isSome)
    (hlen : site.depth ≤ s.counters.length)
    (hslot : v.isComposite → s.value.slot? (site.place.steps s.counters) = some v)
    (hrun : runAll ⟨ts, p.checkRecord ts n, given⟩ b.body s = .error (.mismatch path expected)) :
    m.Points id v (site.place.steps s.counters) (site.path.eval given s.counters.get) path
      (allLooks ⟨ts, p.checkRecord ts n, given⟩ (p.recordLooks ts n) b.body s) := by
  have sim : ∀ {u n'}, u.depth ≤ n' → m.Simulates p ts n' u := fun hu =>
    simulates flat numbered (Or.inl plain) covers hu
  obtain ⟨element, items, rfl, rfl⟩ | ⟨record, members, x, rfl, hc, hx⟩ | ⟨ha, hr⟩ :=
    tested_cases hf
  · have hdepth : ∀ u ∈ items, u.depth ≤ n := fun u hu =>
      Nat.le_trans (Nat.le_of_lt (Value.depth_lt_array hu)) hv
    exact points_array plain hsite hf hb hcalls
      (fun u hu => ih u n (Value.depth_lt_array hu) (hdepth u hu))
      (fun u hu => sim (hdepth u hu)) hlen (hslot rfl) hrun
  · have hdepth : ∀ name, ((Fields.get? name v.fields).getD .undefined).depth < v.depth :=
      Value.depth_get_lt hc
    cases n with
    | zero => exact absurd (hdepth "") (by omega)
    | succ n =>
      have hle : ∀ name, ((Fields.get? name v.fields).getD .undefined).depth ≤ n :=
        fun name => Nat.le_of_lt_succ (Nat.lt_of_lt_of_le (hdepth name) hv)
      exact points_record plain covers hf hb (numbered x _ _ hx) hcalls
        (fun name => ih _ n (hdepth name) (hle name)) (fun name => sim (hle name)) (hslot hc) hrun
  · rw [(hasBody_leaf ha hr).1 hb] at hrun
    cases hrun

/-- Runs of what is written for nodes point to where values fail. -/
theorem pointed (flat : m.Flat) (numbered : m.Numbered) (plain : m.Plain) (covers : m.Covers p)
    (hv : v.depth ≤ n) : m.Pointed p ts n v := by
  induction hd : v.depth using Nat.strongRecOn generalizing v n with
  | _ d ih =>
    subst hd
    intro site bound active id chain given s hsite hx hcalls hlen hread hslot path expected hrun
    have hw : m.Writes site id chain := .of_extend flat hx
    have hnone : chain.conversion = none := by rw [hw.conversion, plain.conversion?]
    have hotherwise : chain.otherwise site.place site.path =
        .fail site.path.folded chain.labels := by rw [Chain.otherwise, hnone]
    unfold Chain.toStmts at hcalls hrun ⊢
    split_ifs at hcalls hrun ⊢ with hempty
    · rw [hnone] at hrun
      cases hrun
    · simp only [allCalls, Stmt.calls, List.append_nil] at hcalls
      rw [runAll_singleton, Stmt.run] at hrun
      rw [allLooks_singleton, Stmt.looks]
      rcases branchLooks_eq ⟨ts, p.checkRecord ts n, given⟩ (p.recordLooks ts n)
          (chain.otherwise site.place site.path) s hw.branches isTest_of_mem_tests with
        ⟨hf, hfall, hlooks⟩ | ⟨k, b, xs, hf, hk, hmem, hbranch, hlooks⟩
      · rw [hread] at hf
        rw [hfall, hotherwise] at hrun
        obtain rfl : site.path.eval given s.counters.get = path := by
          cases hrun
          exact (Path.eval_folded _ _ _).symm
        rw [hlooks, hotherwise, Fallback.looks, List.append_nil]
        exact .here hw.branches (by simpa using hempty) hf _
      · rw [hread] at hf
        rw [hbranch] at hrun
        rw [hlooks]
        exact (points_branch flat numbered plain covers hv (fun _ _ hu hn => ih _ hu hn rfl) hsite
          hf hk.body (fun r hr => hcalls r (mem_branchCalls hmem hr)) hlen hslot hrun).append xs

end

end Conform.Model
