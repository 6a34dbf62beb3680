import Conform.Proofs.Builder.Runs

/-! Numbers of records. Types are looked at in the order of a depth-first walk, and the records
among them are numbered in that order. -/

namespace Conform

variable {D : Type} [DecidableEq D]

section

variable (o : Oracle D) (hooks : List (Hook D))

def IsRecord (d : D) : Prop := hook? hooks d = none ∧ o.trait? d = some .record

instance (d : D) : Decidable (IsRecord o hooks d) :=
  inferInstanceAs (Decidable (hook? hooks d = none ∧ o.trait? d = some .record))

/-- The order in which a depth-first walk through some types meets types for the first time. The
first list holds those that were met before, the last one those that were met after the walk. -/
inductive Meets : List D → List D → List D → Prop
  | nil {met : List D} : Meets met [] met
  | again {met met' ds : List D} {d : D} : d ∈ met → Meets met ds met' → Meets met (d :: ds) met'
  | first {met met₁ met' ds : List D} {d : D} : d ∉ met →
      Meets (met ++ [d]) (children o hooks d) met₁ → Meets met₁ ds met' → Meets met (d :: ds) met'

end

variable {o : Oracle D} {hooks : List (Hook D)}

namespace Meets

variable {met met₁ met' ds : List D} {d : D}

theorem cons (h : Meets o hooks met [d] met₁) (hds : Meets o hooks met₁ ds met') :
    Meets o hooks met (d :: ds) met' := by
  cases h with
  | again hd hn =>
    cases hn
    exact .again hd hds
  | first hd hc hn =>
    cases hn
    exact .first hd hc hds

theorem prefix_of (h : Meets o hooks met ds met') : met <+: met' := by
  induction h with
  | nil => exact List.prefix_refl _
  | again _ _ ih => exact ih
  | first _ _ _ ihc ih => exact (List.prefix_append _ _).trans (ihc.trans ih)

theorem nodup (h : Meets o hooks met ds met') (hn : met.Nodup) : met'.Nodup := by
  induction h with
  | nil => exact hn
  | again _ _ ih => exact ih hn
  | first hd _ _ ihc ih =>
    refine ih (ihc ?_)
    rw [List.nodup_append]
    exact ⟨hn, List.nodup_singleton _, fun a ha b hb hab => hd (List.mem_singleton.1 hb ▸ hab ▸ ha)⟩

theorem mem (h : Meets o hooks met ds met') : ds ⊆ met' := by
  induction h with
  | nil => simp
  | again hd hds ih => exact List.cons_subset.2 ⟨hds.prefix_of.subset hd, ih⟩
  | first _ hc hds _ ih =>
    exact List.cons_subset.2 ⟨hds.prefix_of.subset (hc.prefix_of.subset (by simp)), ih⟩

theorem closed (h : Meets o hooks met ds met') :
    ∀ x ∈ met', x ∈ met ∨ children o hooks x ⊆ met' := by
  induction h with
  | nil => exact fun _ hx => Or.inl hx
  | again _ _ ih => exact ih
  | first _ hc hds ihc ih =>
    intro x hx
    rcases ih x hx with hx | hx
    · rcases ihc x hx with hx | hx
      · rcases List.mem_append.1 hx with hx | hx
        · exact Or.inl hx
        · rw [List.mem_singleton.1 hx]
          exact Or.inr (List.Subset.trans hc.mem hds.prefix_of.subset)
      · exact Or.inr (List.Subset.trans hx hds.prefix_of.subset)
    · exact Or.inr hx

theorem reached (h : Meets o hooks met ds met') :
    ∀ x ∈ met', x ∈ met ∨ ∃ d ∈ ds, Reaches o hooks d x := by
  induction h with
  | nil => exact fun _ hx => Or.inl hx
  | again _ _ ih =>
    exact fun x hx => (ih x hx).imp_right fun ⟨d, hd, hr⟩ => ⟨d, List.mem_cons_of_mem _ hd, hr⟩
  | @first met met₁ met' ds d _ _ _ ihc ih =>
    intro x hx
    rcases ih x hx with hx | ⟨e, he, hr⟩
    · rcases ihc x hx with hx | ⟨c, hc, hr⟩
      · rcases List.mem_append.1 hx with hx | hx
        · exact Or.inl hx
        · rw [List.mem_singleton.1 hx]
          exact Or.inr ⟨d, List.mem_cons_self, .refl⟩
      · exact Or.inr ⟨d, List.mem_cons_self, .head hc hr⟩
    · exact Or.inr ⟨e, List.mem_cons_of_mem _ he, hr⟩

/-- What a walk meets from the start is what its types reach. -/
theorem mem_iff (h : Meets o hooks [] ds met') {x : D} :
    x ∈ met' ↔ ∃ d ∈ ds, Reaches o hooks d x := by
  refine ⟨fun hx => (h.reached x hx).resolve_left List.not_mem_nil, ?_⟩
  rintro ⟨d, hd, hr⟩
  induction hr with
  | refl => exact h.mem hd
  | tail _ hc ih => exact (h.closed _ ih).resolve_left List.not_mem_nil hc

end Meets

namespace Builder

/-- The types that a builder has nodes for, in the order in which it got them. -/
def order (b : Builder D) : List D := b.types.reverse

def records (o : Oracle D) (hooks : List (Hook D)) (b : Builder D) : List D :=
  b.order.filter (IsRecord o hooks ·)

/-- Whether the number of each record is its place among the records. -/
structure Numbered (o : Oracle D) (hooks : List (Hook D)) (b : Builder D) : Prop where
  count : b.recordCount = (b.records o hooks).length
  place : ∀ {d id r members}, (d, id) ∈ b.known → b.kind id = .record r members →
    (b.records o hooks)[r]? = some d

section

variable {b b' : Builder D} {waiting folded : List NodeId} {d : D} {id : NodeId} {name : String}
  {k : NodeKind}

omit [DecidableEq D] in
theorem order_start : (b.start d name k).order = b.order ++ [d] := by
  simp [order, types, start]

theorem records_start (hk : Suits o hooks d k) : (b.start d name k).records o hooks =
    b.records o hooks ++ if recordsOf k = 1 then [d] else [] := by
  have hiff : IsRecord o hooks d ↔ recordsOf k = 1 := by
    constructor
    · rintro ⟨hh, ht⟩
      obtain ⟨r, members, rfl⟩ := hk.eq_record hh ht
      rfl
    · intro hr
      cases k with
      | record r members => exact hk.of_record
      | _ => cases hr
  rw [records, order_start, List.filter_append, ← records]
  by_cases hd : IsRecord o hooks d
  · simp [hd, hiff.1 hd]
  · simp [hd, mt hiff.2 hd]

theorem Numbered.empty : Numbered o hooks (empty : Builder D) :=
  ⟨rfl, fun hd => absurd hd List.not_mem_nil⟩

theorem Numbered.start (hn : Numbered o hooks b) (h : Valid o hooks b waiting)
    (hs : Suits o hooks d k) (hr : ∀ r members, k = .record r members → r = b.recordCount) :
    Numbered o hooks (b.start d name k) := by
  refine ⟨?_, fun {e x r members} hx hk => ?_⟩
  · rw [records_start hs, List.length_append, ← hn.count, Builder.start]
    cases k <;> rfl
  · rw [records_start hs]
    rcases mem_known_start.1 hx with ⟨rfl, rfl⟩ | hx
    · rw [kind_start_self] at hk
      obtain rfl := hr r members hk
      rw [List.getElem?_append_right (Nat.le_of_eq hn.count.symm), hk, hn.count]
      simp [recordsOf]
    · rw [h.kind_start_of_known hx] at hk
      have hplace := hn.place hx hk
      rw [List.getElem?_append_left (List.getElem?_eq_some_iff.1 hplace).1, hplace]

theorem Numbered.setKind (hn : Numbered o hooks b) (hid : id < b.nodes.size)
    (hk : k.outline = (b.kind id).outline) : Numbered o hooks (b.setKind id k) := by
  refine ⟨hn.count, fun hx hr => ?_⟩
  obtain ⟨members, hr⟩ := record_setKind hid hk hr
  exact hn.place hx hr

theorem Numbered.folds (hn : Numbered o hooks b) (hf : b.Folds b') : Numbered o hooks b' := by
  rcases hf with rfl | rfl
  · exact hn
  · have hrecords : b.both.2.records o hooks = b.records o hooks := by
      simp only [records, order, types, known_both]
    refine ⟨by rw [recordCount_both, hrecords, hn.count], fun hx hk => ?_⟩
    rw [known_both] at hx
    rw [hrecords]
    exact hn.place hx (record_both hk)

omit [DecidableEq D] in
theorem mem_order : d ∈ b.order ↔ ∃ id, (d, id) ∈ b.known := by
  rw [order, List.mem_reverse, mem_types]

theorem Numbered.iff (hn : Numbered o hooks b) (h : b.Valid o hooks []) {r : RecordId} :
    (b.records o hooks)[r]? = some d ↔
      ∃ id members, (d, id) ∈ b.known ∧ b.kind id = .record r members := by
  refine ⟨fun hr => ?_, fun ⟨id, members, hd, hk⟩ => hn.place hd hk⟩
  obtain ⟨hmem, hrec⟩ := List.mem_filter.1 (List.mem_of_getElem? hr)
  obtain ⟨hh, ht⟩ := of_decide_eq_true hrec
  obtain ⟨id, hd⟩ := mem_order.1 hmem
  obtain ⟨r', members, hk⟩ := (h.suits hd).eq_record hh ht
  have hnodup : (b.records o hooks).Nodup := by
    refine List.Nodup.filter _ ?_
    rw [order, List.nodup_reverse]
    exact h.types
  obtain ⟨hlt, hget⟩ := List.getElem?_eq_some_iff.1 hr
  obtain ⟨hlt', hget'⟩ := List.getElem?_eq_some_iff.1 (hn.place hd hk)
  obtain rfl := (hnodup.getElem_inj_iff).1 (hget'.trans hget.symm)
  exact ⟨id, members, hd, hk⟩

/-- What a task asks for. -/
def Task.asks : Task D → List D
  | .type d _ => [d]
  | .members _ _ rest _ => rest
  | .fields _ _ _ rest => rest.map (·.2)
  | .types ds _ => ds

omit [DecidableEq D] in
theorem order_of_known (h : b'.known = b.known) : b'.order = b.order := by
  rw [order, types, h]
  rfl

/-- A run numbers the records that it meets, and meets types in the order of a walk. -/
theorem Runs.numbered {task : Task D} (h : Runs o hooks waiting b task b')
    (hn : Numbered o hooks b) :
    Numbered o hooks b' ∧ Meets o hooks b.order task.asks b'.order := by
  have hnew : ∀ {b : Builder D} {d : D}, (∀ id, (d, id) ∉ b.known) → d ∉ b.order :=
    fun hd hmem => (mem_order.1 hmem).elim hd
  induction h with
  | known _ hd => exact ⟨hn, .again (mem_order.2 ⟨_, hd⟩) .nil⟩
  | @leaf waiting b d k hv hd hs hk =>
    refine ⟨hn.start hv hs (by rintro r members rfl; cases hk), .first (hnew hd) ?_ .nil⟩
    rw [children_of_leaf hs hk, order_start]
    exact .nil
  | @array waiting b b' d element x hv hd hh ht he _ ha hx ih =>
    obtain ⟨hn', hm⟩ := ih (hn.start hv (.array hh ht) (by rintro r members ⟨⟩))
    refine ⟨hn'.setKind (ha.valid.waits _ (by simp)) (by rw [ha.grows.kind_start]; rfl),
      .first (hnew hd) ?_ .nil⟩
    rw [children_of_array hh ht he, ← order_start]
    exact hm
  | @union waiting folded b b' d hv hd hu _ ha ih =>
    obtain ⟨hn', hm⟩ := ih (hn.start hv (.union hu) (by rintro r members ⟨⟩))
    have hset : Numbered o hooks (b'.setKind b.nodes.size (.union folded)) :=
      hn'.setKind (ha.valid.waits _ (by simp)) (by rw [ha.grows.kind_start]; rfl)
    refine ⟨⟨hset.count, hset.place⟩, .first (hnew hd) ?_ .nil⟩
    rw [children_of_union hu, ← order_start]
    exact hm
  | @record waiting b b' d hv hd hh ht _ ih =>
    obtain ⟨hn', hm⟩ := ih (hn.start hv (.record hh ht) (by rintro r members ⟨⟩; rfl))
    refine ⟨hn', .first (hnew hd) ?_ .nil⟩
    rw [children_of_record hh ht, ← order_start]
    exact hm
  | noMembers => exact ⟨hn, .nil⟩
  | @member waiting folded folded₁ folded' b b₁ b₂ b' d ds union x _ _ ha _ hm _ ih ih' =>
    have hfolds := folds_of_foldMember hm
    obtain ⟨hn₁, hm₁⟩ := ih hn
    obtain ⟨hn', hm'⟩ := ih' (hn₁.folds hfolds)
    rw [order_of_known hfolds.known] at hm'
    exact ⟨hn', hm₁.cons hm'⟩
  | noFields => exact ⟨hn, .nil⟩
  | @field waiting b b₁ b' d name fs id x record members hv hid _ ha _ hk _ ih ih' =>
    obtain ⟨hn₁, hm₁⟩ := ih hn
    obtain ⟨hn', hm'⟩ := ih' (hn₁.setKind (ha.valid.waits id hid) (by rw [hk]; rfl))
    exact ⟨hn', hm₁.cons hm'⟩
  | noTypes => exact ⟨hn, .nil⟩
  | types _ _ _ _ _ ih ih' =>
    obtain ⟨hn₁, hm₁⟩ := ih hn
    obtain ⟨hn', hm'⟩ := ih' hn₁
    exact ⟨hn', hm₁.cons hm'⟩

end

end Builder

end Conform
