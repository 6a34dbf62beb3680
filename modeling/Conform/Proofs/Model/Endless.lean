import Conform.Proofs.Model.Validators

/-! What is written for a node comes to an end exactly if no array or union is inside itself
without a record between, and a program can be written exactly if this holds of all nodes that
its validators and record checks need. -/

namespace Conform.Model

/-- Whether a node is written out where another one stands. -/
def Within (m : Model) (x id : NodeId) : Prop :=
  m.kind id = .array (some x) ∨ ∃ members, m.kind id = .union members ∧ x ∈ members

/-- Whether all parts of nodes are there, and no node has two conversions. -/
structure Whole (m : Model) : Prop where
  element : ∀ id, m.kind id ≠ .array none
  single : ∀ id n n', .conversion n ∈ m.parts id → .conversion n' ∈ m.parts id → n = n'

section

variable {m : Model} {site : Site} {chain chain' : Chain} {bound : Nat} {active : List NodeId}
  {id x : NodeId}

theorem acc_of_leaf (ha : ∀ element, m.kind id ≠ .array element)
    (hu : ∀ members, m.kind id ≠ .union members) : Acc m.Within id := by
  refine ⟨_, fun x hx => ?_⟩
  rcases hx with hx | ⟨members, hx, -⟩
  · exact absurd hx (ha _)
  · exact absurd hx (hu _)

theorem ok_of_foldlM {ids : List NodeId}
    (h : ids.foldlM (fun chain id => m.extend bound active site chain id) chain = .ok chain') :
    ∀ x ∈ ids, ∃ c c', m.extend bound active site c x = .ok c' := by
  induction ids generalizing chain with
  | nil => simp
  | cons y ys ih =>
    rw [List.foldlM_cons] at h
    obtain ⟨c, hc, h⟩ := bind_eq_ok.1 h
    intro x hx
    rcases List.mem_cons.1 hx with rfl | hx
    · exact ⟨chain, c, hc⟩
    · exact ih h x hx

theorem acc_of_extend (h : m.extend bound active site chain id = .ok chain') :
    Acc m.Within id := by
  induction bound generalizing active site chain chain' id with
  | zero => simp [extend] at h
  | succ bound ih =>
    cases extend_cases h with
    | leaf hk ht ha =>
      refine acc_of_leaf (hk ▸ ha) fun members hu => ?_
      rw [hk.symm.trans hu] at ht
      cases ht
    | array ha hi =>
      refine ⟨_, fun x hx => ?_⟩
      rcases hx with hx | ⟨members, hx, -⟩
      · cases ha.symm.trans hx
        exact ih hi
      · cases ha.symm.trans hx
    | union hu h =>
      refine ⟨_, fun x hx => ?_⟩
      rcases hx with hx | ⟨members, hx, hmem⟩
      · cases hu.symm.trans hx
      · obtain rfl := NodeKind.union.inj (hu.symm.trans hx)
        obtain ⟨c, c', hc⟩ := ok_of_foldlM h x hmem
        exact ih hc
    | any hk | record hk | conversion hk => exact acc_of_leaf (by simp [hk]) (by simp [hk])

/-- Whether the nodes around a node are inside each other without a record between. -/
structure Around (m : Model) (bound : Nat) (active : List NodeId) (id : NodeId) : Prop where
  nodup : active.Nodup
  lt : ∀ a ∈ active, a < m.nodes.size
  inside : ∀ a ∈ active, Relation.TransGen m.Within id a
  bound : m.nodes.size < bound + active.length

theorem irrefl_of_acc (h : Acc m.Within id) : ¬ Relation.TransGen m.Within id id := by
  have hacc : Acc (Relation.TransGen m.Within) id := acc_transGen_iff.2 h
  induction hacc with
  | intro id _ ih => exact fun hself => ih id hself h hself

theorem bound_pos (hn : active.Nodup) (hlt : ∀ a ∈ active, a < m.nodes.size)
    (hb : m.nodes.size < bound + active.length) : bound ≠ 0 := by
  rintro rfl
  have hsub : active ⊆ List.range m.nodes.size := fun a ha => List.mem_range.2 (hlt a ha)
  have hle := (List.subperm_of_subset hn hsub).length_le
  rw [List.length_range] at hle
  omega

theorem Around.pos (h : m.Around bound active id) : bound ≠ 0 := bound_pos h.nodup h.lt h.bound

theorem Around.inner (h : m.Around (bound + 1) active id) (hnot : id ∉ active)
    (hid : id < m.nodes.size) (hx : m.Within x id) : m.Around bound (id :: active) x := by
  refine ⟨List.nodup_cons.2 ⟨hnot, h.nodup⟩, ?_, ?_, ?_⟩
  · exact List.forall_mem_cons.2 ⟨hid, h.lt⟩
  · exact List.forall_mem_cons.2 ⟨.single hx, fun a ha => .head hx (h.inside a ha)⟩
  · have := h.bound
    rw [List.length_cons]
    omega

/-- Whether a chain has no other conversion than a node. -/
def Agrees (m : Model) (chain : Chain) (id : NodeId) : Prop :=
  ∀ n n', chain.conversion = some n → .conversion n' ∈ m.parts id → n' = n

theorem agrees_empty : m.Agrees .empty id := by
  intro n n' h
  cases h

theorem parts_member (flat : m.Flat) {members : List NodeId} (hk : m.kind id = .union members)
    (hx : x ∈ members) : m.parts x = [m.kind x] ∧ m.kind x ∈ m.parts id := by
  have hu := flat id members hk x hx
  constructor
  · unfold parts
    split
    · rename_i ms hm
      simp [hm, NodeKind.isUnion] at hu
    · rfl
  · rw [parts, hk]
    exact List.mem_map_of_mem hx

theorem Agrees.member (flat : m.Flat) {members : List NodeId} (hk : m.kind id = .union members)
    (hc : m.Agrees chain id) (hx : x ∈ members) : m.Agrees chain x := by
  obtain ⟨hparts, hmem⟩ := parts_member flat hk hx
  intro n n' hn hn'
  rw [hparts, List.mem_singleton] at hn'
  exact hc n n' hn (hn' ▸ hmem)

theorem Agrees.next (flat : m.Flat) (whole : m.Whole) {members : List NodeId}
    (hk : m.kind id = .union members) (hc : m.Agrees chain id) (hx : x ∈ members)
    (h : m.extend bound active site chain x = .ok chain') : m.Agrees chain' id := by
  obtain ⟨-, hmem⟩ := parts_member flat hk hx
  intro n n' hn hn'
  have hext := (extend_part (flat id members hk x hx) h).conversion
  rw [hn] at hext
  cases hch : chain.conversion with
  | some other =>
    rw [hch] at hext
    obtain rfl : n = other := by simpa using hext
    exact hc n n' hch hn'
  | none =>
    have hkx : (m.kind x).conversion? = some n := by
      rw [hch] at hext
      simpa using hext.symm
    refine whole.single id n' n hn' ?_
    cases hkind : m.kind x with
    | conversion i =>
      rw [hkind] at hkx hmem
      cases hkx
      exact hmem
    | _ => simp [hkind, NodeKind.conversion?] at hkx

theorem exists_of_foldlM_error (flat : m.Flat) (whole : m.Whole) {members ids : List NodeId}
    (hk : m.kind id = .union members) (hsub : ids ⊆ members) (hc : m.Agrees chain id)
    {e : CompileError}
    (h : ids.foldlM (fun chain x => m.extend bound active site chain x) chain = .error e) :
    ∃ x ∈ members, ∃ c, m.Agrees c x ∧ m.extend bound active site c x = .error e := by
  induction ids generalizing chain with
  | nil => cases h
  | cons x ids ih =>
    obtain ⟨hx, hids⟩ := List.cons_subset.1 hsub
    rw [List.foldlM_cons] at h
    rcases bind_eq_error.1 h with h | ⟨c, hcx, h⟩
    · exact ⟨x, hx, chain, hc.member flat hk hx, h⟩
    · exact ih hids (hc.next flat whole hk hx hcx) h

/-- What cannot be written has a node in it that is inside itself, and the error names one. -/
theorem extend_eq_error (flat : m.Flat) (whole : m.Whole) (ha : m.Around bound active id)
    (hc : m.Agrees chain id) {e : CompileError}
    (h : m.extend bound active site chain id = .error e) :
    ∃ x node, Relation.ReflTransGen m.Within x id ∧ Relation.TransGen m.Within x x ∧
      m.node? x = some node ∧ e = .endless node.name := by
  induction bound generalizing active site chain id with
  | zero => exact absurd rfl ha.pos
  | succ bound ih =>
    rw [extend] at h
    cases hn : m.node? id with
    | none => simp [hn] at h
    | some node =>
      have hk := kind_of_node? hn
      have hlt : id < m.nodes.size := (Array.getElem?_eq_some_iff.1 hn).1
      have hself : id ∈ active → e = .endless node.name → ∃ x node,
          Relation.ReflTransGen m.Within x id ∧ Relation.TransGen m.Within x x ∧
            m.node? x = some node ∧ e = .endless node.name :=
        fun hid he => ⟨id, node, .refl, ha.inside id hid, hn, he⟩
      -- an error further inside is one in here
      have hinner : ∀ {x site chain}, m.Within x id → id ∉ active → m.Agrees chain x →
          m.extend bound (id :: active) site chain x = .error e → ∃ x node,
          Relation.ReflTransGen m.Within x id ∧ Relation.TransGen m.Within x x ∧
            m.node? x = some node ∧ e = .endless node.name := by
        intro x site chain hx hid hcx hex
        obtain ⟨y, node, hyx, hy⟩ := ih (ha.inner hid hlt hx) hcx hex
        exact ⟨y, node, hyx.tail hx, hy⟩
      simp only [hn] at h
      cases hkind : node.kind with
      | array element =>
        cases element with
        | none => exact absurd (hk.trans hkind) (whole.element id)
        | some x =>
          simp only [hkind] at h
          split_ifs at h with hid
          · exact hself (by simpa using hid) (Except.error.inj h).symm
          · rcases bind_eq_error.1 h with h | ⟨items, -, h⟩
            · exact hinner (Or.inl (hk.trans hkind)) (by simpa using hid) agrees_empty h
            · cases h
      | union members =>
        have hku := hk.trans hkind
        simp only [hkind] at h
        split_ifs at h with hid
        · exact hself (by simpa using hid) (Except.error.inj h).symm
        · obtain ⟨x, hx, c, hcx, hex⟩ :=
            exists_of_foldlM_error flat whole hku (List.Subset.refl _) hc h
          exact hinner (Or.inr ⟨members, hku, hx⟩) (by simpa using hid) hcx hex
      | conversion n =>
        simp only [hkind] at h
        cases hconv : chain.conversion with
        | none => simp [hconv] at h
        | some other =>
          have hmem : .conversion n ∈ m.parts id := by
            rw [parts, hk, hkind]
            exact List.mem_singleton.2 rfl
          simp [hconv, (hc other n hconv hmem).symm] at h
      | _ => simp [hkind] at h

theorem exists_extend (flat : m.Flat) (whole : m.Whole) (hacc : Acc m.Within id)
    (ha : m.Around bound active id) (hc : m.Agrees chain id) :
    ∃ chain', m.extend bound active site chain id = .ok chain' := by
  cases h : m.extend bound active site chain id with
  | ok chain' => exact ⟨chain', rfl⟩
  | error e =>
    obtain ⟨x, node, hx, hself, -⟩ := extend_eq_error flat whole ha hc h
    rcases Relation.reflTransGen_iff_eq_or_transGen.1 hx with rfl | hx
    · exact absurd hself (irrefl_of_acc hacc)
    · exact absurd hself (irrefl_of_acc (hacc.inv_of_transGen hx))

theorem Around.start (m : Model) (id : NodeId) : m.Around (m.nodes.size + 1) [] id :=
  ⟨List.nodup_nil, by simp, by simp, by simp⟩

theorem exists_stmts (flat : m.Flat) (whole : m.Whole) (hacc : Acc m.Within id) (site : Site) :
    ∃ body, m.stmts site id = .ok body := by
  obtain ⟨chain, hchain⟩ : ∃ chain, m.extend (m.nodes.size + 1) [] site .empty id = .ok chain :=
    exists_extend flat whole hacc (.start m id) agrees_empty
  exact ⟨_, bind_eq_ok.2 ⟨chain, hchain, rfl⟩⟩

/-! ### Programs -/

theorem exists_of_recordMembers? {record : RecordId} {members : List (String × NodeId)}
    (h : m.recordMembers? record = some members) : ∃ id, m.kind id = .record record members := by
  obtain ⟨node, hnode, hf⟩ := Array.exists_of_findSome?_eq_some h
  obtain ⟨id, hid, rfl⟩ := Array.mem_iff_getElem.1 hnode
  refine ⟨id, ?_⟩
  split at hf
  · rename_i r ms hk
    split_ifs at hf with hr
    subst hr
    obtain rfl := Option.some.inj hf
    simp [kind, node?, hid, hk]
  · cases hf

/-- Whether a node is written out somewhere in a program that has all record checks it calls. -/
def Built (m : Model) (p : Program) (id : NodeId) : Prop :=
  ∃ bound active site chain, m.extend bound active site .empty id = .ok chain ∧
    ∀ r ∈ branchCalls chain.branches, (p.recordCheck? r).isSome

variable {p : Program} {roots : List Root}

theorem Built.acc (h : m.Built p id) : Acc m.Within id := by
  obtain ⟨_, _, _, _, hchain, -⟩ := h
  exact acc_of_extend hchain

theorem Built.of_stmts {body : List Stmt} (h : m.stmts site id = .ok body)
    (hc : ∀ r ∈ allCalls body, (p.recordCheck? r).isSome) : m.Built p id := by
  obtain ⟨chain, hchain, h⟩ := bind_eq_ok.1 h
  rw [← Except.ok.inj h, allCalls_toStmts] at hc
  exact ⟨_, _, _, chain, hchain, hc⟩

theorem Programs.built (h : m.Programs roots p) {root : Root} (hroot : root ∈ roots) :
    m.Built p root.node := by
  obtain ⟨v, hv, -, hbody⟩ := exists_of_mem_left h.validators hroot
  exact .of_stmts hbody (h.calls v hv)

theorem Built.branch (flat : m.Flat) (h : m.Built p id) {k : NodeKind} (hk : k ∈ m.parts id)
    (ht : k.isTest) : ∃ site b, m.HasBody site b k ∧
      ∀ r ∈ allCalls b.body, (p.recordCheck? r).isSome := by
  obtain ⟨bound, active, site, chain, hchain, hcalls⟩ := h
  obtain ⟨bs, hbs, hall⟩ := (extend_node flat hchain).branches
  obtain ⟨b, hb, hbranch⟩ := exists_of_mem_left hall (List.mem_filter.2 ⟨hk, ht⟩)
  refine ⟨site, b, hbranch.body, fun r hr => hcalls r ?_⟩
  rw [hbs]
  exact mem_branchCalls (List.mem_append_right _ hb) hr

theorem allCalls_loop (site : Site) (body : List Stmt) :
    allCalls (loop site body) = allCalls body := by
  cases body with
  | nil => rfl
  | cons s ss => simp [loop, allCalls, Stmt.calls]

theorem Built.element (flat : m.Flat) (h : m.Built p id) (hx : .array (some x) ∈ m.parts id) :
    m.Built p x := by
  obtain ⟨site, b, ⟨bound, active, items, hitems, hbody⟩, hcalls⟩ := h.branch flat hx rfl
  refine ⟨bound, active, site.item, items, hitems, fun r hr => hcalls r ?_⟩
  rw [hbody, allCalls_loop, allCalls_toStmts]
  exact hr

theorem stmts_of_fieldStmts {members : List (String × NodeId)} {body : List Stmt}
    (h : m.fieldStmts members = .ok body) : ∀ f ∈ members, ∃ head,
      m.stmts (.field f.1) f.2 = .ok head ∧ allCalls head ⊆ allCalls body := by
  induction members generalizing body with
  | nil => simp
  | cons g gs ih =>
    obtain ⟨head, hhead, h⟩ := bind_eq_ok.1 h
    obtain ⟨rest, hrest, h⟩ := bind_eq_ok.1 h
    rw [← Except.ok.inj h, allCalls_append]
    intro f hf
    rcases List.mem_cons.1 hf with rfl | hf
    · exact ⟨head, hhead, List.subset_append_left _ _⟩
    · obtain ⟨head', hhead', hsub⟩ := ih hrest f hf
      exact ⟨head', hhead', List.Subset.trans hsub (List.subset_append_right _ _)⟩

theorem Built.recordCheck (flat : m.Flat) (h : m.Built p id) {record : RecordId}
    {members : List (String × NodeId)} (hr : .record record members ∈ m.parts id) :
    (p.recordCheck? record).isSome := by
  obtain ⟨site, b, hbody, hcalls⟩ := h.branch flat hr rfl
  have hbody : b.body = [.call record site.place site.path.folded] := hbody
  exact hcalls record (by simp [hbody, allCalls, Stmt.calls])

theorem Built.field (flat : m.Flat) (numbered : m.Numbered) (covers : m.Covers p)
    (h : m.Built p id) {record : RecordId} {members : List (String × NodeId)}
    (hr : .record record members ∈ m.parts id) : ∀ f ∈ members, m.Built p f.2 := by
  obtain ⟨check, hcheck⟩ := Option.isSome_iff_exists.1 (h.recordCheck flat hr)
  obtain ⟨⟨members', hm, hfields⟩, hcalled⟩ := covers record check hcheck
  obtain ⟨y, hy⟩ := exists_kind_of_mem_parts hr
  obtain rfl := Option.some.inj ((numbered y record members hy.symm).symm.trans hm)
  intro f hf
  obtain ⟨head, hhead, hsub⟩ := stmts_of_fieldStmts hfields f hf
  exact .of_stmts hhead fun r hr => hcalled r (hsub hr)

theorem exists_fieldStmts (flat : m.Flat) (whole : m.Whole) {members : List (String × NodeId)}
    (h : ∀ f ∈ members, Acc m.Within f.2) : ∃ body, m.fieldStmts members = .ok body := by
  induction members with
  | nil => exact ⟨[], rfl⟩
  | cons f fs ih =>
    obtain ⟨head, hhead⟩ := exists_stmts flat whole (h f (by simp)) (.field f.1)
    obtain ⟨rest, hrest⟩ := ih fun g hg => h g (by simp [hg])
    exact ⟨_, bind_eq_ok.2 ⟨head, hhead, bind_eq_ok.2 ⟨rest, hrest, rfl⟩⟩⟩

theorem exists_validators (flat : m.Flat) (whole : m.Whole)
    (h : ∀ root ∈ roots, Acc m.Within root.node) : ∃ vs, m.validators roots = .ok vs := by
  induction roots with
  | nil => exact ⟨[], rfl⟩
  | cons root roots ih =>
    obtain ⟨body, hbody⟩ := exists_stmts flat whole (h root (by simp)) .root
    obtain ⟨vs, hvs⟩ := ih fun r hr => h r (by simp [hr])
    exact ⟨_, bind_eq_ok.2 ⟨body, hbody, bind_eq_ok.2 ⟨vs, hvs, rfl⟩⟩⟩

theorem exists_recordChecks (flat : m.Flat) (whole : m.Whole)
    (h : ∀ id record members, m.kind id = .record record members →
      ∀ f ∈ members, Acc m.Within f.2) {done : List RecordCheck} {queue : List RecordId} :
    ∃ checks, m.recordChecks bound done queue = .ok checks := by
  induction bound generalizing done queue with
  | zero => exact ⟨done, rfl⟩
  | succ bound ih =>
    cases queue with
    | nil => exact ⟨done, rfl⟩
    | cons record queue =>
      rw [recordChecks]
      cases hm : m.recordMembers? record with
      | none => exact ih
      | some members =>
        obtain ⟨id, hid⟩ := exists_of_recordMembers? hm
        obtain ⟨body, hbody⟩ := exists_fieldStmts flat whole (h id record members hid)
        obtain ⟨checks, hchecks⟩ := ih
        exact ⟨checks, bind_eq_ok.2 ⟨body, hbody, hchecks⟩⟩

/-- A program can be written if nothing that it needs is endless. -/
theorem exists_program (flat : m.Flat) (whole : m.Whole)
    (hroots : ∀ root ∈ roots, Acc m.Within root.node)
    (hfields : ∀ id record members, m.kind id = .record record members →
      ∀ f ∈ members, Acc m.Within f.2) (routines : List Routine) :
    ∃ p, m.program roots routines = .ok p := by
  obtain ⟨vs, hvs⟩ := exists_validators flat whole hroots
  obtain ⟨checks, hchecks⟩ : ∃ checks, m.recordChecks (m.recordCount + 1) []
      (firstOccurrences (vs.flatMap fun v => allCalls v.body)) = .ok checks :=
    exists_recordChecks flat whole hfields
  exact ⟨_, bind_eq_ok.2 ⟨vs, hvs, bind_eq_ok.2 ⟨checks, hchecks, rfl⟩⟩⟩

end

end Conform.Model
