import Conform.Proofs.Builder.Compile
import Conform.Proofs.Builder.Recursion

/-! Conversions that compete for one type or in one union stand in the way of a program, and they
are the only reason for which compiling reports them. -/

namespace Conform

variable {D : Type} [DecidableEq D] {o : Oracle D} {hooks : List (Hook D)}

/-- Whether different conversions are left of a union. -/
def Competing (o : Oracle D) (hooks : List (Hook D)) (u : D) : Prop :=
  IsUnion o hooks u ∧ ∃ l l' k k', Leaf o hooks u l ∧ Leaf o hooks u l' ∧
    hook? hooks l = some k ∧ hook? hooks l' = some k' ∧ k.conversion ≠ k'.conversion

/-- Whether a type is at two places of a list. -/
structure Repeats (ds : List D) (i j : Nat) (d : D) : Prop where
  lt : i < j
  first : ds[i]? = some d
  second : ds[j]? = some d

/-- What an error may be that resolving a type ends with. A union with two conversions is one that
the type leads to, and no error tells of hooks that clash. -/
inductive Blames (o : Oracle D) (hooks : List (Hook D)) (d : D) : CompileError → Prop
  | unsupported {name reason : String} : Blames o hooks d (.unsupported name reason)
  | inUnion {u : D} : Reaches o hooks d u → IsUnion o hooks u →
      Builder.Torn o hooks (o.unionMembers u) → Blames o hooks d (.inUnion (o.typeName u))

section

variable {d c u : D} {k : Hook D} {e : CompileError}

theorem result_of_hook? (h : hook? hooks d = some k) : k ∈ hooks ∧ k.result = d :=
  ⟨List.mem_of_find?_eq_some h, by simpa using List.find?_some h⟩

theorem Competing.of_torn (hn : (hooks.map (·.conversion)).Nodup) (hu : IsUnion o hooks u)
    (h : Builder.Torn o hooks (o.unionMembers u)) : Competing o hooks u := by
  obtain ⟨l, l', ⟨m, hm, hl⟩, ⟨m', hm', hl'⟩, hh, hh', hne⟩ := h
  obtain ⟨k, hk⟩ := Option.isSome_iff_exists.1 hh
  obtain ⟨k', hk'⟩ := Option.isSome_iff_exists.1 hh'
  refine ⟨hu, l, l', k, k', .member hu hm hl, .member hu hm' hl', hk, hk', fun he => hne ?_⟩
  obtain ⟨hmem, rfl⟩ := result_of_hook? hk
  obtain ⟨hmem', rfl⟩ := result_of_hook? hk'
  rw [List.inj_on_of_nodup_map hn hmem hmem' he]

theorem Blames.of_child (hc : c ∈ children o hooks d) (h : Blames o hooks c e) :
    Blames o hooks d e := by
  cases h with
  | unsupported => exact .unsupported
  | inUnion hr hu ht => exact .inUnion (.head hc hr) hu ht

end

namespace Builder

/-- Whether resolving a type fails for a reason that lies in that type. -/
def Fails (o : Oracle D) (hooks : List (Hook D)) (resolve : Builder D → D → Result D NodeId) :
    Prop :=
  ∀ ⦃b b' : Builder D⦄ ⦃waiting : List NodeId⦄ ⦃d : D⦄ ⦃e : CompileError⦄, Valid o hooks b waiting →
    resolve b d = (.error e, b') → Blames o hooks d e

section

variable {b b' : Builder D} {waiting folded : List NodeId} {ds ms : List D} {d m : D}
  {id x union : NodeId} {k : NodeKind} {e : CompileError}
  {resolve : Builder D → D → Result D NodeId}

omit [DecidableEq D] in
theorem Grows.name (h : b.Grows b') (hid : id < b.nodes.size) : b'.name id = b.name id := by
  rw [Builder.name, h.node id hid, Builder.name]

omit [DecidableEq D] in
theorem name_start {name : String} : (b.start d name k).name b.nodes.size = name := by
  simp [Builder.name, node?, start]

/-! ### Folding -/

theorem Torn.mono {ms' : List D} (h : Torn o hooks ms) (hms : ms ⊆ ms') : Torn o hooks ms' := by
  obtain ⟨l, l', ⟨m, hm, hl⟩, ⟨m', hm', hl'⟩, hconv⟩ := h
  exact ⟨l, l', ⟨m, hms hm, hl⟩, ⟨m', hms hm', hl'⟩, hconv⟩

omit [DecidableEq D] in
theorem foldLeaf_eq_error (hf : foldLeaf union b folded x = (.error e, b')) :
    e = .inUnion (b.name union) := by
  cases leafFold hf
  rfl

omit [DecidableEq D] in
theorem foldLeaves_eq_error {leaves : List NodeId} (hu : union < b.nodes.size)
    (hf : foldLeaves union b folded leaves = (.error e, b')) : e = .inUnion (b.name union) := by
  induction leaves generalizing b folded with
  | nil => simp [foldLeaves] at hf
  | cons x xs ih =>
    simp only [foldLeaves] at hf
    split at hf
    · rename_i e' b₁ he
      cases hf
      exact foldLeaf_eq_error he
    · rename_i folded₁ b₁ he
      have hfolds := folds_of_foldLeaf he
      have hg := hfolds.grows
      rw [ih (Nat.lt_of_lt_of_le hu hg.size) hf, hg.name hu]

/-- Folding in a member fails at a union that is being folded, or at a second conversion. -/
theorem foldMember_eq_error (h : Valid o hooks b waiting) (hu : union < b.nodes.size)
    (hm : (m, x) ∈ b.known) (hg : Gathered o hooks b ms folded)
    (hf : foldMember union b folded x = (.error e, b')) :
    (∃ name, e = .circularUnion name) ∨
      e = .inUnion (b.name union) ∧ Torn o hooks (ms ++ [m]) := by
  have herror := foldMember_error h hm hg hf
  rcases h.foldMember_cases hm union folded with
    ⟨-, -, name, heq⟩ | ⟨members, -, hopen, -, -, heq⟩ | ⟨hn, heq⟩ <;> rw [heq] at hf
  · cases hf
    exact Or.inl ⟨name, rfl⟩
  · exact Or.inr ⟨foldLeaves_eq_error hu hf, herror.resolve_left fun hx => hopen hx.2⟩
  · exact Or.inr ⟨foldLeaf_eq_error hf, herror.resolve_left fun hx => hn hx.1⟩

/-! ### Resolving -/

theorem resolveMembers_eq_error (hr : Resolves o hooks resolve) (hfail : Fails o hooks resolve)
    (hu : IsUnion o hooks d) (h : Valid o hooks b waiting) (hid : union < b.nodes.size)
    (hname : b.name union = o.typeName d) (hg : Gathered o hooks b ms folded)
    (hms : ∀ m ∈ ms ++ ds, m ∈ o.unionMembers d)
    (hf : resolveMembers resolve union b folded ds = (.error e, b')) : Blames o hooks d e := by
  -- `ms` holds the members that are folded in already
  induction ds generalizing b folded ms with
  | nil => simp [resolveMembers] at hf
  | cons c ds ih =>
    rw [List.append_cons] at hms
    simp only [resolveMembers] at hf
    split at hf
    · rename_i e' b₁ hc
      cases hf
      apply (hfail h hc).of_child
      rw [children_of_union hu]
      exact hms c (by simp)
    rename_i x b₁ hc
    obtain ⟨ha, hx⟩ := hr h hc
    have hid₁ := Nat.lt_of_lt_of_le hid ha.grows.size
    have hname₁ : b₁.name union = o.typeName d := (ha.grows.name hid).trans hname
    have hg₁ := hg.later h ha.valid.types ha.later
    split at hf
    · rename_i e' b₂ hm
      cases hf
      rcases foldMember_eq_error ha.valid hid₁ hx hg₁ hm with ⟨n, rfl⟩ | ⟨rfl, ht⟩
      · exact .unsupported
      · rw [hname₁]
        exact .inUnion .refl hu (ht.mono fun m hm => hms m (List.mem_append_left _ hm))
    rename_i folded₂ b₂ hm
    obtain ⟨hfolds, hg₂⟩ := foldMember_gathered ha.valid hx hg₁ hm
    have hgrows := hfolds.grows
    exact ih (ha.valid.folds hfolds) (Nat.lt_of_lt_of_le hid₁ hgrows.size)
      ((hgrows.name hid₁).trans hname₁) hg₂ hms hf

theorem resolveFields_eq_error (hr : Resolves o hooks resolve) (hfail : Fails o hooks resolve)
    {record : RecordId} {fs : List (String × D)} {members : List (String × NodeId)}
    (h : Valid o hooks b waiting) (hid : id ∈ waiting) (hk : b.kind id = .record record members)
    (hf : resolveFields resolve id record b members fs = (.error e, b')) :
    ∃ f ∈ fs, Blames o hooks f.2 e := by
  induction fs generalizing b members with
  | nil => cases hf
  | cons f fs ih =>
    obtain ⟨name, d⟩ := f
    simp only [resolveFields] at hf
    split at hf
    · rename_i e' b₁ hd
      cases hf
      exact ⟨(name, d), by simp, hfail h hd⟩
    rename_i x b₁ hd
    obtain ⟨ha, -⟩ := hr h hd
    obtain ⟨h₂, hk₂⟩ := ha.field h hid hk (members ++ [(name, x)])
    obtain ⟨g, hg, hblames⟩ := ih h₂ hk₂ hf
    exact ⟨g, by simp [hg], hblames⟩

theorem resolveWithin_fails (depth : Nat) : Fails o hooks (resolveWithin o hooks depth) := by
  induction depth with
  | zero =>
    intro b b' waiting d e h hf
    cases hf
    exact .unsupported
  | succ depth ih =>
    intro b b' waiting d e h hf
    have hr : Resolves o hooks (resolveWithin o hooks depth) := resolveWithin_resolves depth
    cases way o hooks b d with
    | known hl => cases (resolveWithin_known hl).symm.trans hf
    | single hl hs =>
      obtain ⟨k, hs, hk⟩ | ⟨hh, hrefused⟩ | ⟨hh, ht, he⟩ := hs.cases
      · cases (resolveWithin_leaf hl hs hk).symm.trans hf
      · obtain ⟨reason, heq⟩ := resolveWithin_refused o hl hh hrefused
        cases (heq depth).symm.trans hf
        exact .unsupported
      · cases (resolveWithin_noElement hl hh ht he).symm.trans hf
        exact .unsupported
    | array hl hh ht he =>
      rw [resolveWithin_array hl hh ht he, sealed_eq_error] at hf
      have hstart : Valid o hooks (b.start d (o.typeName d) (.array none)) _ :=
        h.start (lookup_eq_none.1 hl) (.array hh ht) (by rintro _ _ ⟨⟩)
      apply (ih hstart hf).of_child
      rw [children_of_array hh ht he]
      exact List.mem_cons_self
    | record hl hh ht =>
      rw [resolveWithin_record hl hh ht, sealed_eq_error] at hf
      have hstart : Valid o hooks (b.start d (o.typeName d) (.record b.recordCount [])) _ :=
        h.start (lookup_eq_none.1 hl) (.record hh ht) (by rintro _ _ ⟨⟩; rfl)
      obtain ⟨f, hmem, hblames⟩ := resolveFields_eq_error hr ih hstart List.mem_cons_self
        kind_start_self hf
      apply hblames.of_child
      rw [children_of_record hh ht]
      exact List.mem_map_of_mem hmem
    | union hl hu =>
      rw [resolveWithin_union hl hu, sealed_eq_error] at hf
      have hstart : Valid o hooks (b.start d (o.typeName d) (.union [])) _ :=
        h.start (lookup_eq_none.1 hl) (.union hu) (by rintro _ _ ⟨⟩)
      exact resolveMembers_eq_error hr ih hu hstart (by simp [start]) name_start
        (gathered_nil _) (by simp) hf

theorem resolveRoots_eq_error {requests : List (Request D)} (h : Valid o hooks b [])
    (hf : resolveRoots o hooks b requests = .error e) :
    ∃ q ∈ requests, Blames o hooks q.root e := by
  induction requests generalizing b with
  | nil => cases hf
  | cons q qs ih =>
    simp only [resolveRoots, resolve] at hf
    split at hf
    · rename_i e' b₁ hr
      cases hf
      exact ⟨q, by simp, resolveWithin_fails _ h hr⟩
    · rename_i id b₁ hr
      obtain ⟨ha, -⟩ := resolveWithin_resolves _ h hr
      rcases bind_eq_error.1 hf with hf | ⟨rest, -, hf⟩
      · obtain ⟨q', hq', hblames⟩ := ih ha.valid hf
        exact ⟨q', by simp [hq'], hblames⟩
      · cases hf

end

/-! ### Hooks of one type -/

theorem clash?_eq_some {before : List (Hook D)} {k k' : Hook D}
    (h : clash? before hooks = some (k, k')) : ∃ i j : Nat, i < j ∧
      (before ++ hooks)[i]? = some k ∧ (before ++ hooks)[j]? = some k' ∧ k.result = k'.result := by
  induction hooks generalizing before with
  | nil => cases h
  | cons k₁ ks ih =>
    rw [clash?] at h
    split at h
    · rename_i first hfirst
      cases h
      obtain ⟨i, hi⟩ := List.mem_iff_getElem?.1 (List.mem_of_find?_eq_some hfirst)
      have hlt : i < before.length := (List.getElem?_eq_some_iff.1 hi).1
      refine ⟨i, before.length, hlt, ?_, by simp, by simpa using List.find?_some hfirst⟩
      rw [List.getElem?_append_left hlt, hi]
    · simpa using ih h

theorem checkHooks_eq_error {e : CompileError} (h : checkHooks o hooks = .error e) :
    ∃ (i j : Nat) (k k' : Hook D), i < j ∧ hooks[i]? = some k ∧ hooks[j]? = some k' ∧
      k.result = k'.result ∧ e = .sameTarget (o.typeName k.result) k.conversion k'.conversion := by
  unfold checkHooks at h
  split at h
  · rename_i k k' hc
    cases h
    obtain ⟨i, j, hlt, hi, hj, he⟩ := clash?_eq_some hc
    exact ⟨i, j, k, k', hlt, hi, hj, he, by rw [he]⟩
  · cases h

end Builder

/-! ### Compiling -/

section

variable {requests : List (Request D)} {e : CompileError} {p : Program} {q : Request D} {u : D}

/-- Compiling fails for hooks of one type, or for what one of the requests is for. -/
theorem compile_eq_error (h : compile o requests hooks = .error e) :
    Builder.checkHooks o hooks = .error e ∨ ∃ q ∈ requests, Blames o hooks q.root e := by
  rcases bind_eq_error.1 h with h | ⟨_, -, h⟩
  · exact Or.inl h
  right
  rcases bind_eq_error.1 h with h | ⟨⟨roots, b⟩, hroots, h⟩
  · exact Builder.resolveRoots_eq_error Builder.valid_empty h
  · obtain ⟨ha, hall⟩ := resolveRoots_advances Builder.valid_empty hroots
    have hv := ha.valid
    obtain ⟨root, hroot, x, node, -, -, -, rfl⟩ :=
      Model.program_eq_error hv.flat hv.whole hv.numbered h
    obtain ⟨q, hq, -⟩ := exists_of_mem_right hall hroot
    exact ⟨q, hq, .unsupported⟩

theorem hooks_of_sameTarget {name : String} {m n : ConversionId}
    (h : compile o requests hooks = .error (.sameTarget name m n)) :
    ∃ (i j : Nat) (k k' : Hook D), i < j ∧ hooks[i]? = some k ∧ hooks[j]? = some k' ∧
      k.result = k'.result ∧ name = o.typeName k.result ∧ m = k.conversion ∧ n = k'.conversion := by
  rcases compile_eq_error h with he | ⟨q, -, hblames⟩
  · obtain ⟨i, j, k, k', hlt, hi, hj, hsame, he⟩ := Builder.checkHooks_eq_error he
    cases he
    exact ⟨i, j, k, k', hlt, hi, hj, hsame, rfl, rfl, rfl⟩
  · cases hblames

theorem exists_sameTarget {i j : Nat} {d : D} (h : Repeats (hooks.map (·.result)) i j d) :
    ∃ name m n, compile o requests hooks = .error (.sameTarget name m n) := by
  cases hc : Builder.checkHooks o hooks with
  | ok _ =>
    have hn := Builder.checkHooks_eq_ok.1 hc
    obtain ⟨hlen, -⟩ := List.getElem?_eq_some_iff.1 h.second
    have hne := List.nodup_iff_getElem?_ne_getElem?.1 hn i j h.lt hlen
    exact absurd (h.first.trans h.second.symm) hne
  | error e =>
    obtain ⟨-, -, k, k', -, -, -, -, rfl⟩ := Builder.checkHooks_eq_error hc
    exact ⟨_, _, _, bind_eq_error.2 (Or.inl hc)⟩

theorem not_competing_of_compile (h : compile o requests hooks = .ok p) (hq : q ∈ requests)
    (hr : Reaches o hooks q.root u) : ¬ Competing o hooks u := by
  obtain ⟨_, -, h⟩ := bind_eq_ok.1 h
  obtain ⟨⟨roots, b⟩, hroots, h⟩ := bind_eq_ok.1 h
  obtain ⟨ha, hall⟩ := resolveRoots_advances Builder.valid_empty hroots
  have hv := ha.valid
  have hp := Model.Programs.of_program hv.model_counted hv.numbered h
  obtain ⟨root, hroot, -, -, hknown⟩ := exists_of_mem_left hall hq
  obtain ⟨d, x, hd, -, hleaves⟩ := hv.exists_built hp hroot hknown hr
  rintro ⟨-, l, l', k, k', hl, hl', hk, hk', hne⟩
  have hsame := (hv.fine hd).single (hleaves l hl) (hleaves l' hl') (by simp [hk]) (by simp [hk'])
  rw [hsame, hk'] at hk
  exact hne (by rw [Option.some.inj hk])

/-- Where different conversions in a union are reported, a request leads to such a union. -/
theorem competing_of_inUnion (hn : (hooks.map (·.conversion)).Nodup) {name : String}
    (h : compile o requests hooks = .error (.inUnion name)) :
    ∃ q ∈ requests, ∃ u, Reaches o hooks q.root u ∧ Competing o hooks u ∧ name = o.typeName u := by
  rcases compile_eq_error h with he | ⟨q, hq, hblames⟩
  · obtain ⟨i, j, k, k', -, -, -, -, he⟩ := Builder.checkHooks_eq_error he
    cases he
  · cases hblames with
    | inUnion hr hu ht => exact ⟨q, hq, _, hr, .of_torn hn hu ht, rfl⟩

end

end Conform
