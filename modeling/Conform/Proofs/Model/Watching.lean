import Conform.Proofs.Model.Looking

/-! Running what is written for a node looks at the value as it should. The proof follows the
depth of the value, like that of what running comes to, and uses it for the states in between. -/

namespace Conform

namespace Value

theorem isComposite_withFields (v : Value) (fields : List (String × Value)) :
    (v.withFields fields).isComposite = v.isComposite := by cases v <;> rfl

end Value

namespace Model

/-- Whether running what is written for nodes looks at a value as it should, with up to `n` record
checks inside each other. -/
def Watched (m : Model) (p : Program) (ts : Transforms) (n : Nat) (v : Value) : Prop :=
  ∀ {site : Site} {bound : Nat} {active : List NodeId} {id : NodeId} {chain : Chain}
    (given : String) (s : State), site.Scoped →
    m.extend bound active site .empty id = .ok chain →
    (∀ r ∈ allCalls (chain.toStmts site.place site.path), (p.recordCheck? r).isSome) →
    site.depth ≤ s.counters.length → s.read site.place = v →
    (v.isComposite → s.value.slot? (site.place.steps s.counters) = some v) →
    site.place.Guarded s.counters s.value →
    Watches p s (site.place.steps s.counters) v
      (allLooks ⟨ts, p.checkRecord ts n, given⟩ (p.recordLooks ts n)
        (chain.toStmts site.place site.path) s)

section

variable {m : Model} {p : Program} {ts : Transforms}

section

variable {site : Site} {bound n : Nat} {active : List NodeId} {element : NodeId} {chain : Chain}
  {steps : List Step} {s : State} {items : List Value}

/-- Whether a look is at an array for its length, or at one of its items from one on. -/
def Located (steps : List Step) (i : Nat) (l : Look) : Prop :=
  l.deed.isRound ∧ l.steps = steps ∨ ∃ j ≥ i, steps ++ [.item (some j)] <+: l.steps

theorem Located.mono {i j : Nat} {l : Look} (h : Located steps j l) (hij : i ≤ j) :
    Located steps i l :=
  h.imp_right fun ⟨k, hk, hpre⟩ => ⟨k, Nat.le_trans hij hk, hpre⟩

theorem Located.spares {i : Nat} {l l' : Look} (h : steps ++ [.item (some i)] <+: l.steps)
    (h' : Located steps (i + 1) l') : l.Spares l' := by
  rcases h' with ⟨hr, hl'⟩ | ⟨j, hj, hpre⟩
  · refine fun _ => ⟨fun hle => ?_, fun _ => hr⟩
    have := (h.trans hle).length_le
    rw [hl', List.length_append, List.length_singleton] at this
    omega
  · exact spares_of_ne steps (by simp; omega) h hpre

/-- What holds of the looks of the rounds of a loop from one item on. -/
structure WatchesRounds (p : Program) (s : State) (steps : List Step) (items : List Value) (i : Nat)
    (ls : List Look) : Prop where
  fits : ∀ l ∈ ls, Fits p s steps (.array items) (l.within ⟨steps, items.length⟩)
  located : ∀ l ∈ ls, Located steps i l
  spares : ls.Pairwise Look.Spares
  tested : ∀ l ∈ ls, ∀ r, l.deed = .call r → l.Tested ls

theorem WatchesRounds.cons {t : State} {place : Place} {now : List Value} {i : Nat} {u : Value}
    {body tail : List Look} (hs : s.value.slot? steps = some (.array items))
    (hplace : place.steps t.counters = steps) (ht : ∃ w, t.value = Value.write w steps s.value)
    (hnow : t.value.slot? steps = some (.array now)) (hlen : now.length = items.length)
    (hu : items[i]? = some u) (hbody : Watches p t (steps ++ [.item (some i)]) u body)
    (htail : WatchesRounds p s steps items (i + 1) tail) :
    WatchesRounds p s steps items i (t.look (.round i items.length) place :: (body ++ tail)) := by
  have hi : i < items.length := (List.getElem?_eq_some_iff.1 hu).1
  have hat : ∀ l ∈ body, steps ++ [.item (some i)] <+: l.steps := fun l hl => by
    obtain ⟨rest, hrest, -⟩ := (hbody.fits l hl).place
    exact ⟨rest, hrest.symm⟩
  refine ⟨?_, ?_, ?_, ?_⟩
  · refine List.forall_mem_cons.2 ⟨.round hplace ht hnow hlen (Nat.le_of_lt hi), ?_⟩
    exact List.forall_mem_append.2
      ⟨fun l hl => .item hs ht hnow hlen hu (hbody.fits l hl), htail.fits⟩
  · refine List.forall_mem_cons.2 ⟨Or.inl ⟨rfl, hplace⟩, List.forall_mem_append.2 ⟨?_, ?_⟩⟩
    · exact fun l hl => Or.inr ⟨i, Nat.le_refl i, hat l hl⟩
    · exact fun l hl => (htail.located l hl).mono (Nat.le_succ i)
  · refine List.pairwise_cons.2 ⟨(fun l' _ hconvert => nomatch hconvert), ?_⟩
    exact List.pairwise_append.2 ⟨hbody.spares, htail.spares,
      fun l hl l' hl' => (htail.located l' hl').spares (hat l hl)⟩
  · refine List.forall_mem_cons.2 ⟨fun _ => Deed.noConfusion, List.forall_mem_append.2 ⟨?_, ?_⟩⟩
    · exact fun l hl r hr => ((hbody.tested l hl r hr).mono (List.prefix_append _ _).isInfix).cons
    · exact fun l hl r hr => ((htail.tested l hl r hr).mono (List.suffix_append _ _).isInfix).cons

/-- The rounds of a loop from one item on. Those before it have made of their items what is in
`before`. -/
theorem watches_rounds (given : String) (hsite : site.Scoped)
    (hx : m.extend bound active site.item .empty element = .ok chain)
    (hcalls : ∀ r ∈ allCalls (chain.toStmts site.item.place site.item.path),
      (p.recordCheck? r).isSome)
    (hsteps : site.place.steps s.counters = steps)
    (hs : s.value.slot? steps = some (.array items)) {rest : List Value}
    (ih : ∀ u ∈ rest, m.Watched p ts n u) (sim : ∀ u ∈ rest, m.Simulates p ts n u)
    (before : List Value) (t : State) (hrest : items.drop before.length = rest)
    (hlen : (before ++ rest).length = items.length)
    (hagree : Counters.Agree site.depth s.counters t.counters)
    (ht : ∃ w, t.value = Value.write w steps s.value)
    (hnow : t.value.slot? steps = some (.array (before ++ rest))) :
    WatchesRounds p s steps items before.length (roundLooks site.place site.depth items.length
      (allLooks ⟨ts, p.checkRecord ts n, given⟩ (p.recordLooks ts n)
        (chain.toStmts site.item.place site.item.path))
      (runAll ⟨ts, p.checkRecord ts n, given⟩ (chain.toStmts site.item.place site.item.path))
      (List.range' before.length rest.length) t) := by
  -- the counter of the loop is the only one that the rounds set
  have hplace : ∀ {cs}, Counters.Agree site.depth s.counters cs → ∀ i,
      site.place.steps (cs.put site.depth i) = steps := fun h i =>
    (Place.steps_agree hsite.place (h.trans (.put h.length_le i))).trans hsteps
  induction rest generalizing before t with
  | nil =>
    set r : State := { t with counters := t.counters.put site.depth items.length }
    have hround : Fits p s steps (.array items)
        ((r.look (.round items.length items.length) site.place).within ⟨steps, items.length⟩) :=
      .round (hplace hagree _) ht hnow hlen (Nat.le_refl _)
    exact ⟨List.forall_mem_singleton.2 hround,
      List.forall_mem_singleton.2 (Or.inl ⟨rfl, hplace hagree _⟩), List.pairwise_singleton _ _,
      List.forall_mem_singleton.2 fun _ => Deed.noConfusion⟩
  | cons u rest ihr =>
    -- where the item is at the start of the round
    set r : State := { t with counters := t.counters.put site.depth before.length }
    have hitem : site.item.place.steps r.counters = steps ++ [.item (some before.length)] :=
      hsite.steps_item hsteps hagree _
    have hslot : r.value.slot? (site.item.place.steps r.counters) = some u :=
      hsite.slot?_item hsteps hagree hnow
    have hbody := ih u (by simp) given r hsite.item hx hcalls (Counters.length_le_put _ _)
      (Place.read_of_slot? hslot) (fun _ => hslot) (Place.guarded_of_slot? hslot)
    rw [hitem] at hbody
    have hu : items[before.length]? = some u := by
      rw [← Nat.add_zero before.length, ← List.getElem?_drop, hrest, List.getElem?_cons_zero]
    have htail : items.drop (before.length + 1) = rest := by
      rw [← List.tail_drop, hrest, List.tail_cons]
    rw [List.length_cons, List.range'_succ, roundLooks, List.cons_append]
    -- the looks of a round do not say what it comes to: that is what a visit of the item says
    refine .cons (t := r) hs (hplace hagree _) ht hnow hlen hu hbody ?_
    have hrun := run_item given hsite hx hcalls hsteps rfl (sim u (by simp)) before t hagree hnow
    cases hv : m.visit ts element (site.path.eval given s.counters.get ++ "[" ++
        toString before.length ++ "]") u with
    | error e =>
      rw [hv] at hrun
      have hrun : runAll _ _ r = .error e := hrun
      rw [hrun]
      exact ⟨by simp, by simp, .nil, by simp⟩
    | ok w =>
      rw [hv] at hrun
      obtain ⟨cs', hcs', hrun⟩ := hrun
      rw [hrun]
      obtain ⟨w₀, hw₀⟩ := ht
      have hnext := ihr (fun x hx => ih x (by simp [hx])) (fun x hx => sim x (by simp [hx]))
        (before ++ [w.getD u])
        ⟨Value.write (.array (before ++ w.getD u :: rest)) steps t.value, cs'⟩
        (by rw [List.length_append, List.length_singleton, htail]) (by simpa using hlen) hcs'
        ⟨_, by rw [hw₀, Value.write_write _ _ hs]⟩ (by simpa using Value.slot?_write _ hnow)
      rw [List.length_append, List.length_singleton] at hnext
      exact hnext

end

section

variable {site : Site} {n : Nat} {b : Branch} {given : String} {s : State} {v : Value}

/-- The tests up to the first that the value passes are all at the place. Its branch counts with
the test, or the fallback where there is none. -/
theorem watches_branches {env : Env} {looks : RecordId → String → Value → List Look}
    {otherwise : Fallback} {ks : List NodeKind} {bs : List Branch}
    (h : List.Forall₂ (m.IsBranch site) ks bs) (hk : ∀ k ∈ ks, k.isTest)
    (hg : site.place.Guarded s.counters s.value) (hread : s.read site.place = v)
    (hnone : ks.find? (·.admits v) = none →
      Watches p s (site.place.steps s.counters) v (otherwise.looks s))
    (hsome : ∀ k b, ks.find? (·.admits v) = some k → m.IsBranch site k b → b ∈ bs →
      Watches p s (site.place.steps s.counters) v
        (s.look (.test (k.test site.place)) site.place :: allLooks env looks b.body s)) :
    Watches p s (site.place.steps s.counters) v (branchLooks env looks otherwise bs s) := by
  induction h with
  | nil => exact hnone rfl
  | @cons k b ks bs hkb h ih =>
    cases b with
    | mk label test body =>
      have htest : test = k.test site.place := hkb.test
      have hholds : s.holds test = k.admits v := by
        rw [htest, NodeKind.holds_test (hk k (by simp)), hread]
      rw [branchLooks, hholds, htest, NodeKind.place_test]
      cases hadm : k.admits v with
      | true => exact hsome k _ (by simp [hadm]) hkb (by simp)
      | false =>
        refine .look hg hread rfl (fun _ => Deed.noConfusion) rfl ?_
        refine ih (fun k hk' => hk k (by simp [hk']))
          (fun hf => hnone (by simpa [hadm] using hf)) ?_
        exact fun k' b' hf hb hmem => hsome k' b' (by simpa [hadm] using hf) hb (by simp [hmem])

theorem watches_array {element : NodeId} {items : List Value} (hsite : site.Scoped)
    (hb : m.HasBody site b (.array (some element)))
    (hcalls : ∀ r ∈ allCalls b.body, (p.recordCheck? r).isSome)
    (ih : ∀ u ∈ items, m.Watched p ts n u) (sim : ∀ u ∈ items, m.Simulates p ts n u)
    (hlen : site.depth ≤ s.counters.length)
    (hslot : s.value.slot? (site.place.steps s.counters) = some (.array items)) :
    Watches p s (site.place.steps s.counters) (.array items)
      (allLooks ⟨ts, p.checkRecord ts n, given⟩ (p.recordLooks ts n) b.body s) := by
  obtain ⟨bound, active, chain, hx, hbody⟩ := hb
  rw [hbody] at hcalls ⊢
  unfold loop at hcalls ⊢
  split_ifs at hcalls ⊢
  · exact .nil
  · have hread : s.read site.place = .array items := Place.read_of_slot? hslot
    have hrounds := watches_rounds given hsite hx
      (fun r hr => hcalls r (by simpa [allCalls, Stmt.calls] using hr)) rfl hslot ih sim []
      { s with counters := s.counters.reach site.depth } rfl rfl (.reach hlen)
      ⟨_, (Value.write_slot hslot).symm⟩ hslot
    rw [List.length_nil, ← List.range_eq_range'] at hrounds
    rw [allLooks_singleton, Stmt.looks]
    simp only [hread, Value.length]
    refine .look (Place.guarded_of_slot? hslot) hread rfl (fun _ => Deed.noConfusion) rfl ?_
    exact ⟨List.forall_mem_map.2 hrounds.fits, List.pairwise_map.2 hrounds.spares,
      List.forall_mem_map.2 fun l hl r hr => (hrounds.tested l hl r hr).within⟩

/-- What holds of the looks of a record check on a value at fields of some names. -/
structure WatchesFields (p : Program) (v : Value) (names : List String) (ls : List Look) :
    Prop where
  fits : ∀ l ∈ ls, ∃ name ∈ names, ∃ t, Fits p t [.field name] (v.get name) l
  spares : ls.Pairwise Look.Spares
  tested : ∀ l ∈ ls, ∀ r, l.deed = .call r → l.Tested ls

theorem WatchesFields.cons {t : State} {name : String} {names : List String}
    {head tail : List Look} (hname : name ∉ names)
    (hhead : Watches p t [.field name] (v.get name) head) (htail : WatchesFields p v names tail) :
    WatchesFields p v (name :: names) (head ++ tail) where
  fits := List.forall_mem_append.2 ⟨fun l hl => ⟨name, by simp, t, hhead.fits l hl⟩, fun l hl => by
    obtain ⟨other, hother, hfit⟩ := htail.fits l hl
    exact ⟨other, by simp [hother], hfit⟩⟩
  spares := by
    refine List.pairwise_append.2 ⟨hhead.spares, htail.spares, fun l hl l' hl' => ?_⟩
    obtain ⟨rest, hrest, -⟩ := (hhead.fits l hl).place
    obtain ⟨other, hother, t', hfit⟩ := htail.fits l' hl'
    obtain ⟨rest', hrest', -⟩ := hfit.place
    have hne : Step.field name ≠ .field other := by
      rintro ⟨⟩
      exact hname hother
    exact spares_of_ne [] hne ⟨rest, hrest.symm⟩ ⟨rest', hrest'.symm⟩
  tested := List.forall_mem_append.2
    ⟨fun l hl r hr => (hhead.tested l hl r hr).mono (List.prefix_append _ _).isInfix,
      fun l hl r hr => (htail.tested l hl r hr).mono (List.suffix_append _ _).isInfix⟩

theorem watches_field {name : String} {id : NodeId} {body : List Stmt} (given : String)
    (done : List (String × Value)) (cs : Counters) (hc : v.isComposite)
    (ih : m.Watched p ts n ((Fields.get? name v.fields).getD .undefined))
    (hb : m.stmts (.field name) id = .ok body)
    (hcalls : ∀ r ∈ allCalls body, (p.recordCheck? r).isSome)
    (hdone : Fields.get? name done = Fields.get? name v.fields) :
    Watches p ⟨v.withFields done, cs⟩ [.field name] (v.get name)
      (allLooks ⟨ts, p.checkRecord ts n, given⟩ (p.recordLooks ts n) body
        ⟨v.withFields done, cs⟩) := by
  obtain ⟨chain, hchain, hb⟩ := bind_eq_ok.1 hb
  obtain rfl := Except.ok.inj hb
  have hget : (v.withFields done).get name = v.get name := Value.get_withFields hdone
  rw [← Value.get_eq_fields] at ih
  have hobject : (v.withFields done).isComposite := by rwa [Value.isComposite_withFields]
  exact ih given ⟨v.withFields done, cs⟩ (Site.Scoped.field name) hchain hcalls (Nat.zero_le _) hget
    (fun hc => by rw [← hget] at hc ⊢; exact Value.slot?_get hc) ⟨trivial, hobject⟩

theorem watches_fields {members : List (String × NodeId)} {body : List Stmt} (given : String)
    (done : List (String × Value)) (cs : Counters) (hc : v.isComposite)
    (ih : ∀ name, m.Watched p ts n ((Fields.get? name v.fields).getD .undefined))
    (sim : ∀ name, m.Simulates p ts n ((Fields.get? name v.fields).getD .undefined))
    (hb : m.fieldStmts members = .ok body)
    (hcalls : ∀ r ∈ allCalls body, (p.recordCheck? r).isSome)
    (hnodup : (Fields.names members).Nodup)
    (hdone : ∀ name ∈ Fields.names members, Fields.get? name done = Fields.get? name v.fields) :
    WatchesFields p v (Fields.names members) (allLooks ⟨ts, p.checkRecord ts n, given⟩
      (p.recordLooks ts n) body ⟨v.withFields done, cs⟩) := by
  induction members generalizing body done cs with
  | nil =>
    obtain rfl := Except.ok.inj hb
    exact ⟨by simp [allLooks], .nil, by simp [allLooks]⟩
  | cons member members ihm =>
    obtain ⟨name, id⟩ := member
    obtain ⟨head, hhead, hb⟩ := bind_eq_ok.1 hb
    obtain ⟨rest, hrest, hb⟩ := bind_eq_ok.1 hb
    obtain rfl := Except.ok.inj hb
    rw [allCalls_append] at hcalls
    obtain ⟨hname, hnodup⟩ := List.nodup_cons.1 hnodup
    have hheads : ∀ r ∈ allCalls head, (p.recordCheck? r).isSome :=
      fun r hr => hcalls r (List.mem_append_left _ hr)
    have hsame : Fields.get? name done = Fields.get? name v.fields :=
      hdone name (by simp [Fields.names])
    have hfield := run_field given done cs (sim name) hhead hheads hsame
    have hlook := watches_field given done cs hc (ih name) hhead hheads hsame
    rw [allLooks_append]
    refine .cons hname hlook ?_
    cases hv : m.visit ts id (given ++ "." ++ name)
        ((Fields.get? name v.fields).getD .undefined) with
    | error e =>
      rw [hv] at hfield
      have hfield : runAll _ _ _ = .error e := hfield
      rw [hfield]
      exact ⟨by simp, .nil, by simp⟩
    | ok w =>
      rw [hv] at hfield
      obtain ⟨cs', hfield⟩ := hfield
      rw [hfield]
      refine ihm _ _ hrest (fun r hr => hcalls r (List.mem_append_right _ hr)) hnodup ?_
      intro other hother
      refine get?_visited (Or.inr ?_) hv (hdone other (List.mem_cons_of_mem _ hother))
      rintro rfl
      exact hname hother

theorem WatchesFields.call {record : RecordId} {names : List String} {ls : List Look}
    (hsome : (p.recordCheck? record).isSome) (hc : v.isComposite)
    (hslot : s.value.slot? (site.place.steps s.counters) = some v)
    (h : WatchesFields p v names ls) :
    Watches p s (site.place.steps s.counters) v
      (s.look (.test (.isObject site.place)) site.place ::
        { s.look (.call record) site.place with calls := 1 } ::
          ls.map (·.inside s (site.place.steps s.counters))) where
  fits := by
    refine List.forall_mem_cons.2 ⟨.look (Place.guarded_of_slot? hslot)
      (Place.read_of_slot? hslot) rfl fun _ => Deed.noConfusion, ?_⟩
    refine List.forall_mem_cons.2 ⟨.call hsome hc hslot, List.forall_mem_map.2 fun l hl => ?_⟩
    obtain ⟨name, -, t, hfit⟩ := h.fits l hl
    exact hfit.inside hc hslot
  spares := by
    refine .cons (fun _ _ hconvert => nomatch hconvert) ?_
    refine .cons (fun _ _ hconvert => nomatch hconvert) ?_
    exact List.pairwise_map.2 (h.spares.imp spares_inside.2)
  tested := by
    refine List.forall_mem_cons.2 ⟨fun _ => Deed.noConfusion, ?_⟩
    refine List.forall_mem_cons.2 ⟨fun _ _ => ?_, List.forall_mem_map.2 fun l hl r hr => ?_⟩
    · exact ⟨_, List.IsPrefix.isInfix ⟨_, rfl⟩, rfl, rfl, rfl⟩
    · exact (h.tested l hl r hr).inside.cons.cons

theorem watches_record {record : RecordId} {members : List (String × NodeId)} (covers : m.Covers p)
    (hb : m.HasBody site b (.record record members))
    (hmembers : m.recordMembers? record = some members) (hnodup : (Fields.names members).Nodup)
    (hcalls : ∀ r ∈ allCalls b.body, (p.recordCheck? r).isSome) (hc : v.isComposite)
    (ih : ∀ name, m.Watched p ts n ((Fields.get? name v.fields).getD .undefined))
    (sim : ∀ name, m.Simulates p ts n ((Fields.get? name v.fields).getD .undefined))
    (hslot : s.value.slot? (site.place.steps s.counters) = some v) :
    Watches p s (site.place.steps s.counters) v
      (s.look (.test (.isObject site.place)) site.place ::
        allLooks ⟨ts, p.checkRecord ts (n + 1), given⟩ (p.recordLooks ts (n + 1)) b.body s) := by
  have hbody : b.body = [.call record site.place site.path.folded] := hb
  rw [hbody] at hcalls ⊢
  have hsome : (p.recordCheck? record).isSome := hcalls record (by simp [allCalls, Stmt.calls])
  obtain ⟨check, hcheck⟩ := Option.isSome_iff_exists.1 hsome
  obtain ⟨⟨ms, hms, hfields⟩, hinner⟩ := covers record check hcheck
  obtain rfl : members = ms := Option.some.inj (hmembers.symm.trans hms)
  have hlooks := watches_fields (s.pathText ⟨ts, p.checkRecord ts (n + 1), given⟩ site.path.folded)
    v.fields [] hc ih sim hfields hinner hnodup fun _ _ => rfl
  rw [Value.withFields_fields] at hlooks
  rw [allLooks_singleton, Stmt.looks, State.callLooks, hslot]
  simp only [Program.recordLooks, hcheck]
  exact hlooks.call hsome hc hslot

theorem watches_branch {id : NodeId} {k : NodeKind} (flat : m.Flat) (numbered : m.Numbered)
    (distinct : m.Distinct) (covers : m.Covers p) (hsite : site.Scoped)
    (hf : (m.tests id).find? (·.admits v) = some k) (hbody : m.HasBody site b k)
    (hcalls : ∀ r ∈ allCalls b.body, (p.recordCheck? r).isSome) (hv : v.depth ≤ n)
    (ih : ∀ u n', u.depth < v.depth → u.depth ≤ n' → m.Watched p ts n' u)
    (hlen : site.depth ≤ s.counters.length) (hg : site.place.Guarded s.counters s.value)
    (hread : s.read site.place = v)
    (hslot : v.isComposite → s.value.slot? (site.place.steps s.counters) = some v) :
    Watches p s (site.place.steps s.counters) v
      (s.look (.test (k.test site.place)) site.place ::
        allLooks ⟨ts, p.checkRecord ts n, given⟩ (p.recordLooks ts n) b.body s) := by
  have sim : ∀ {u n'}, u.depth ≤ n' → m.Simulates p ts n' u := fun hu =>
    simulates flat numbered (Or.inr distinct) covers hu
  obtain ⟨element, items, rfl, rfl⟩ | ⟨record, members, x, rfl, hc, hx⟩ | ⟨ha, hr⟩ :=
    tested_cases hf
  · have hdepth : ∀ u ∈ items, u.depth ≤ n := fun u hu =>
      Nat.le_trans (Nat.le_of_lt (Value.depth_lt_array hu)) hv
    refine .look hg hread rfl (fun _ => Deed.noConfusion) rfl ?_
    exact watches_array hsite hbody hcalls
      (fun u hu => ih u n (Value.depth_lt_array hu) (hdepth u hu))
      (fun u hu => sim (hdepth u hu)) hlen (hslot rfl)
  · have hdepth : ∀ name, ((Fields.get? name v.fields).getD .undefined).depth < v.depth :=
      Value.depth_get_lt hc
    cases n with
    | zero => exact absurd (hdepth "") (by omega)
    | succ n =>
      have hle : ∀ name, ((Fields.get? name v.fields).getD .undefined).depth ≤ n := fun name =>
        Nat.le_of_lt_succ (Nat.lt_of_lt_of_le (hdepth name) hv)
      exact watches_record covers hbody (numbered x _ _ hx) (distinct x _ _ hx) hcalls hc
        (fun name => ih _ n (hdepth name) (hle name)) (fun name => sim (hle name)) (hslot hc)
  · rw [(hasBody_leaf ha hr).1 hbody]
    exact .look hg hread rfl (fun _ => Deed.noConfusion) rfl .nil

/-- Running what is written for a node looks at the value as it should. -/
theorem watched (flat : m.Flat) (numbered : m.Numbered) (distinct : m.Distinct)
    (covers : m.Covers p) (hv : v.depth ≤ n) : m.Watched p ts n v := by
  induction hd : v.depth using Nat.strongRecOn generalizing v n with
  | _ d ih =>
    subst hd
    intro site bound active id chain given s hsite hx hcalls hlen hread hslot hg
    have hw : m.Writes site id chain := .of_extend flat hx
    unfold Chain.toStmts at hcalls ⊢
    split_ifs at hcalls ⊢ with hempty
    · cases chain.conversion with
      | none => exact .nil
      | some c =>
        rw [allLooks_singleton, Stmt.looks]
        exact .convert hg hread
    · simp only [allCalls, Stmt.calls, List.append_nil] at hcalls
      rw [allLooks_singleton, Stmt.looks]
      refine watches_branches hw.branches isTest_of_mem_tests hg hread (fun _ => ?_)
        fun k b hf hb hmem => watches_branch flat numbered distinct covers hsite hf hb.body
          (fun r hr => hcalls r (mem_branchCalls hmem hr)) hv (fun u n' hu hn => ih _ hu hn rfl)
          hlen hg hread hslot
      unfold Chain.otherwise
      cases chain.conversion with
      | none => exact .nil
      | some c => exact .convert hg hread

end

end

end Model

end Conform
