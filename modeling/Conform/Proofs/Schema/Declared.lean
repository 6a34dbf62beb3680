import Mathlib.Data.List.Nodup
import Conform.Proofs.Model.Alternatives
import Conform.Proofs.Schema.Interning

/-! The table of a list of declarations. Every declared name has an entry, which spells the body
of the declaration or is that of the name that the declaration stands for. -/

namespace Conform

namespace Fields

variable {α : Type _}

theorem get?_eq_some_iff {fs : List (String × α)} (h : (names fs).Nodup) {n : String} {v : α} :
    get? n fs = some v ↔ (n, v) ∈ fs := by
  induction fs with
  | nil => simp [get?]
  | cons f fs ih =>
    obtain ⟨k, w⟩ := f
    rw [names, List.map_cons, List.nodup_cons] at h
    rw [get?, List.mem_cons]
    split_ifs with hk
    · subst hk
      constructor
      · rintro ⟨⟩
        exact Or.inl rfl
      · rintro (⟨⟨⟩⟩ | hm)
        · rfl
        · exact absurd (List.mem_map_of_mem hm) h.1
    · rw [ih h.2]
      simp [Ne.symm hk]

theorem get?_isSome_iff {fs : List (String × α)} {n : String} :
    (get? n fs).isSome ↔ ∃ v, (n, v) ∈ fs := by
  induction fs with
  | nil => simp [get?]
  | cons f fs ih =>
    obtain ⟨k, w⟩ := f
    rw [get?]
    split_ifs with hk
    · subst hk
      simp
    · rw [ih]
      simp [Ne.symm hk]

end Fields

namespace TypeExpr

theorem isAlias_iff {e : TypeExpr} : e.isAlias ↔ ∃ n, e = .name n ∧ Keyword.ofName? n = none := by
  cases e <;> simp [isAlias]

end TypeExpr

namespace Table

/-- Whether a shape is that of a declared body. -/
def BodyOf (t : Table) (e : TypeExpr) (s : Shape) : Prop :=
  match e.keyword? with
  | some k => s = .keyword k
  | none => t.Lowers e s

theorem BodyOf.mono {t t' : Table} (hk : t.Keeps t') {e : TypeExpr} {s : Shape}
    (h : t.BodyOf e s) : t'.BodyOf e s := by
  unfold BodyOf at h ⊢
  split at h
  · exact h
  · exact h.mono hk

/-- Whether a declared name leads to an entry that spells a body. -/
inductive Denotes (types : Declarations) (t : Table) : String → TypeId → Prop
  | own {n : String} {e : TypeExpr} {d : TypeId} : Fields.get? n types = some e →
      e.isAlias = false → t.lookup n = some d → t.BodyOf e (t.shape d) → Denotes types t n d
  | through {n m : String} {d : TypeId} : Fields.get? n types = some (.name m) →
      Keyword.ofName? m = none → t.lookup m = some d → Denotes types t m d → Denotes types t n d

/-- What the table of declarations is for them. -/
structure Declares (types : Declarations) (t : Table) : Prop where
  tidy : t.Tidy
  denotes : ∀ {n d}, t.lookup n = some d → Denotes types t n d
  declared : ∀ {n}, (Fields.get? n types).isSome → (t.lookup n).isSome

/-! ### Slots -/

theorem lookup_bind {t : Table} {n m : String} {d : TypeId} :
    (t.bind m d).lookup n = if n = m then some d else t.lookup n := by
  rw [bind, lookup]
  split_ifs with h
  · rw [h, Fields.get?_put_self]
  · rw [Fields.get?_put_of_ne h]
    rfl

theorem lookup_bind_isSome {t : Table} {n m : String} {d : TypeId} (h : (t.lookup n).isSome) :
    ((t.bind m d).lookup n).isSome := by
  rw [lookup_bind]
  split_ifs
  · rfl
  · exact h

/-- Whether entries are slots of declarations among some, whose bodies were not read yet. -/
structure Slotted (types : Declarations) (t : Table) : Prop where
  entry : ∀ {d : TypeId} {e : Entry}, t.entries[d]? = some e → ∃ n, e = ⟨some n, .pending⟩
  slot : ∀ {n d}, t.lookup n = some d → t.entries[d]? = some ⟨some n, .pending⟩ ∧
    ∃ e, (n, e) ∈ types ∧ e.isAlias = false

theorem Slotted.mono {types types' : Declarations} {t : Table} (h : Slotted types t)
    (hsub : types ⊆ types') : Slotted types' t :=
  ⟨h.entry, fun hn => ⟨(h.slot hn).1, by
    obtain ⟨e, he, hea⟩ := (h.slot hn).2
    exact ⟨e, hsub he, hea⟩⟩⟩

theorem Slotted.alloc {types : Declarations} {t : Table} {name : String} {body : TypeExpr}
    (h : Slotted types t) (hmem : (name, body) ∈ types) (ha : body.isAlias = false) :
    Slotted types ((t.alloc ⟨some name, .pending⟩).2.bind name t.entries.size) := by
  refine ⟨fun {d e} he => ?_, fun {n d} hn => ?_⟩
  · have he : (t.alloc ⟨some name, .pending⟩).2.entries[d]? = some e := he
    rw [entry_alloc] at he
    split_ifs at he
    · exact ⟨name, (Option.some.inj he).symm⟩
    · exact h.entry he
  · change (t.alloc ⟨some name, .pending⟩).2.entries[d]? = some ⟨some n, .pending⟩ ∧ _
    rw [lookup_bind] at hn
    rw [entry_alloc]
    split_ifs at hn with hname
    · obtain rfl := Option.some.inj hn
      subst hname
      exact ⟨if_pos rfl, body, hmem, ha⟩
    · obtain ⟨hent, hdeclared⟩ := h.slot hn
      refine ⟨?_, hdeclared⟩
      rw [if_neg (Nat.ne_of_lt (lt_of_entry hent)), hent]

theorem slots_slotted (types : Declarations) : Slotted types (slots types) ∧
    ∀ f ∈ types, f.2.isAlias = false → ((slots types).lookup f.1).isSome := by
  suffices h : ∀ (done rest : Declarations) (t : Table), Slotted done t →
      (∀ f ∈ done, f.2.isAlias = false → (t.lookup f.1).isSome) →
      let t' := rest.foldl slot t
      Slotted (done ++ rest) t' ∧
        ∀ f ∈ done ++ rest, f.2.isAlias = false → (t'.lookup f.1).isSome by
    refine h [] types empty ⟨?_, ?_⟩ (by simp) <;> simp [empty, lookup, Fields.get?]
  intro done rest
  induction rest generalizing done with
  | nil =>
    intro t hs hd
    rw [List.append_nil]
    exact ⟨hs, hd⟩
  | cons f rest ih =>
    intro t hs hd
    obtain ⟨name, body⟩ := f
    rw [List.foldl_cons, List.append_cons]
    have hs' : Slotted (done ++ [(name, body)]) t := hs.mono (List.subset_append_left _ _)
    apply ih
    · unfold slot
      split_ifs with ha
      · exact hs'
      · exact hs'.alloc (List.mem_append_right _ (List.mem_singleton_self _)) (by simpa using ha)
    · intro f hf hfa
      unfold slot
      rcases List.mem_append.1 hf with hf | hf
      · split_ifs with ha
        · exact hd f hf hfa
        · exact lookup_bind_isSome (hd f hf hfa)
      · rw [List.mem_singleton.1 hf] at hfa ⊢
        rw [if_neg (by simp [hfa]), lookup_bind]
        simp

/-! ### Aliases -/

/-- Whether a name leads through aliases to a slot. -/
inductive Leads (types : Declarations) (t : Table) : String → TypeId → Prop
  | slot {n : String} {d : TypeId} : t.lookup n = some d → Leads types t n d
  | through {n m : String} {d : TypeId} : Fields.get? n types = some (.name m) →
      Keyword.ofName? m = none → Leads types t m d → Leads types t n d

theorem get?_filter {α : Type _} {n name : String} {fs : List (String × α)} {v : α}
    (h : Fields.get? n (fs.filter (·.1 != name)) = some v) : Fields.get? n fs = some v := by
  induction fs with
  | nil => exact h
  | cons f fs ih =>
    obtain ⟨k, w⟩ := f
    rw [List.filter_cons] at h
    rw [Fields.get?]
    split_ifs with hk
    · subst hk
      split_ifs at h with hne
      · rw [Fields.get?, if_pos rfl] at h
        exact h
      · -- every field of this name is filtered out
        have hn : k = name := by simpa using hne
        subst hn
        have : (Fields.get? k (fs.filter (·.1 != k))).isSome := by rw [h]; rfl
        obtain ⟨w', hw'⟩ := Fields.get?_isSome_iff.1 this
        simp at hw'
    · split_ifs at h
      · rw [Fields.get?, if_neg hk] at h
        exact ih h
      · exact ih h

theorem follow_leads {types : Declarations} {t t₀ : Table} {fuel : Nat} {unseen : Declarations}
    {n : String} {d : TypeId} (hl : ∀ {n d}, t.lookup n = some d → Leads types t₀ n d)
    (hb : ∀ {n e}, Fields.get? n types = some e → e.isAlias = false → (t.lookup n).isSome)
    (hu : ∀ {n e}, Fields.get? n unseen = some e → Fields.get? n types = some e)
    (h : t.follow types fuel unseen n = .ok d) : Leads types t₀ n d := by
  induction fuel generalizing unseen n with
  | zero =>
    unfold follow at h
    split at h
    · rename_i id hn
      cases h
      exact hl hn
    · dsimp only at h
      split at h <;> cases h
  | succ fuel ih =>
    unfold follow at h
    split at h
    · rename_i id hn
      cases h
      exact hl hn
    · rename_i hnone
      split at h
      · rename_i fuel' target hfuel hget
        obtain rfl := Nat.succ.inj hfuel
        have hk : Keyword.ofName? target = none := by
          by_contra hk
          have := hb (hu hget) (by simpa [TypeExpr.isAlias, Option.isSome_iff_ne_none] using hk)
          rw [hnone] at this
          cases this
        exact .through (hu hget) hk (ih (fun h => hu (get?_filter h)) h)
      · split at h <;> cases h

theorem lookup_own {types : Declarations} (hn : (Fields.names types).Nodup) {n : String}
    {d : TypeId} (h : (slots types).lookup n = some d) :
    ∃ e, Fields.get? n types = some e ∧ e.isAlias = false := by
  obtain ⟨-, e, he, hea⟩ := (slots_slotted types).1.slot h
  exact ⟨e, (Fields.get?_eq_some_iff hn).2 he, hea⟩

theorem Leads.unique {types : Declarations} (hn : (Fields.names types).Nodup) {n : String}
    {d d' : TypeId} (h : Leads types (slots types) n d) (h' : Leads types (slots types) n d') :
    d = d' := by
  induction h with
  | slot hl =>
    cases h' with
    | slot hl' => exact Option.some.inj (hl.symm.trans hl')
    | through hg hk hm =>
      obtain ⟨e, he, hea⟩ := lookup_own hn hl
      obtain rfl := Option.some.inj (hg.symm.trans he)
      simp [TypeExpr.isAlias, hk] at hea
  | through hg hk hm ih =>
    cases h' with
    | slot hl' =>
      obtain ⟨e, he, hea⟩ := lookup_own hn hl'
      obtain rfl := Option.some.inj (hg.symm.trans he)
      simp [TypeExpr.isAlias, hk] at hea
    | through hg' hk' hm' =>
      have := hg.symm.trans hg'
      simp only [Option.some.injEq, TypeExpr.name.injEq] at this
      subst this
      exact ih hm'

/-- Whether a table has the slots of declarations, and names that lead to them. -/
structure Aliased (types : Declarations) (t : Table) : Prop where
  entries : t.entries = (slots types).entries
  leads : ∀ {n d}, t.lookup n = some d → Leads types (slots types) n d
  kept : ∀ {n d}, (slots types).lookup n = some d → t.lookup n = some d

theorem slots_aliased (types : Declarations) : Aliased types (slots types) :=
  ⟨rfl, fun h => .slot h, fun h => h⟩

theorem Aliased.own {types : Declarations} {t : Table} (h : Aliased types t)
    (hn : (Fields.names types).Nodup) {n : String} {e : TypeExpr}
    (he : Fields.get? n types = some e) (ha : e.isAlias = false) : (t.lookup n).isSome := by
  obtain ⟨d, hd⟩ := Option.isSome_iff_exists.1
    ((slots_slotted types).2 (n, e) ((Fields.get?_eq_some_iff hn).1 he) ha)
  rw [h.kept hd]
  rfl

theorem Aliased.bind {types : Declarations} {t : Table} {name : String} {id : TypeId}
    (hn : (Fields.names types).Nodup) (h : Aliased types t)
    (hf : t.follow types types.length types name = .ok id) : Aliased types (t.bind name id) := by
  have hlead := follow_leads h.leads (h.own hn) (fun h => h) hf
  refine ⟨h.entries, fun {n d} hl => ?_, fun {n d} hl => ?_⟩
  · rw [lookup_bind] at hl
    split_ifs at hl with hname
    · obtain rfl := Option.some.inj hl
      rw [hname]
      exact hlead
    · exact h.leads hl
  · rw [lookup_bind]
    split_ifs with hname
    · rw [hlead.unique hn (.slot (hname ▸ hl))]
    · exact h.kept hl

theorem aliases_aliased {types rest : Declarations} {t t' : Table}
    (hn : (Fields.names types).Nodup) (hsub : ∀ f ∈ rest, f ∈ types) (ht : Aliased types t)
    (h : aliases types rest t = .ok t') :
    Aliased types t' ∧ (∀ n, (t.lookup n).isSome → (t'.lookup n).isSome) ∧
      ∀ f ∈ rest, f.2.isAlias → (t'.lookup f.1).isSome := by
  induction rest generalizing t with
  | nil =>
    rw [aliases] at h
    cases h
    exact ⟨ht, fun _ h => h, by simp⟩
  | cons f rest ih =>
    obtain ⟨name, body⟩ := f
    have hsub' : ∀ f ∈ rest, f ∈ types := fun f hf => hsub f (List.mem_cons_of_mem _ hf)
    rw [aliases] at h
    split at h
    · rename_i ha
      split at h
      · cases h
      · rename_i id hf
        obtain ⟨h₁, h₂, h₃⟩ := ih hsub' (ht.bind hn hf) h
        refine ⟨h₁, fun n hs => h₂ n (lookup_bind_isSome hs), ?_⟩
        intro f hf hfa
        rcases List.mem_cons.1 hf with rfl | hf
        · apply h₂
          rw [lookup_bind, if_pos rfl]
          rfl
        · exact h₃ f hf hfa
    · rename_i ha
      obtain ⟨h₁, h₂, h₃⟩ := ih hsub' ht h
      refine ⟨h₁, h₂, ?_⟩
      intro f hf hfa
      rcases List.mem_cons.1 hf with rfl | hf
      · exact absurd hfa ha
      · exact h₃ f hf hfa

/-! ### Bodies -/

theorem entry_setShape {t : Table} {id d : TypeId} {s : Shape} :
    (t.setShape id s).entries[d]? =
      if d = id then (t.entries[d]?).map fun e => { e with shape := s } else t.entries[d]? := by
  rw [setShape, Array.getElem?_modify]
  by_cases h : d = id
  · rw [if_pos h, if_pos h.symm]
  · rw [if_neg h, if_neg (Ne.symm h)]

theorem entry_setShape_self {t : Table} {id : TypeId} {s : Shape} {e : Entry}
    (he : t.entries[id]? = some e) : (t.setShape id s).entries[id]? = some { e with shape := s } := by
  rw [entry_setShape, if_pos rfl, he, Option.map_some]

/-- The slots of other declarations are as they were. -/
theorem entry_setShape_of_name {t : Table} {id d : TypeId} {s a c : Shape} {n name : String}
    (hid : t.entries[id]? = some ⟨some name, a⟩) (hd : t.entries[d]? = some ⟨some n, c⟩)
    (hne : n ≠ name) : (t.setShape id s).entries[d]? = some ⟨some n, c⟩ := by
  rw [entry_setShape, if_neg, hd]
  rintro rfl
  rw [hid] at hd
  simp only [Option.some.injEq, Entry.mk.injEq] at hd
  exact hne hd.1.symm

theorem hasInline_setShape {t : Table} {id d : TypeId} {s a : Shape} {e : Entry}
    (he : t.entries[id]? = some e) (hname : e.name.isSome) :
    (t.setShape id s).HasInline d a ↔ t.HasInline d a := by
  rw [HasInline, HasInline, entry_setShape]
  split_ifs with hd
  · rw [hd, he]
    cases e with
    | mk name shape =>
      cases name with
      | none => cases hname
      | some n => simp
  · rfl

theorem keeps_setShape {t : Table} {id : TypeId} {s : Shape} {e : Entry}
    (he : t.entries[id]? = some e) (hname : e.name.isSome) : t.Keeps (t.setShape id s) :=
  ⟨rfl, (hasInline_setShape he hname).2⟩

theorem Tidy.setShape {t : Table} (ht : t.Tidy) {id : TypeId} {s : Shape} {e : Entry}
    (he : t.entries[id]? = some e) (hname : e.name.isSome)
    (hc : ∀ c ∈ s.children, c < t.entries.size) : (t.setShape id s).Tidy := by
  have hsize : (t.setShape id s).entries.size = t.entries.size := by simp [Table.setShape]
  refine ⟨?_, ?_, ?_, ?_⟩
  · intro n d hd
    rw [hsize]
    exact ht.names hd
  · intro n d a hd ha
    exact ht.named hd ((hasInline_setShape he hname).1 ha)
  · intro d e' he' c hce
    rw [hsize]
    rw [entry_setShape] at he'
    split_ifs at he' with hd
    · rw [hd, he] at he'
      obtain rfl := Option.some.inj he'
      exact hc c hce
    · exact ht.children he' c hce
  · intro i j a b hi hj hab
    exact ht.unique ((hasInline_setShape he hname).1 hi) ((hasInline_setShape he hname).1 hj) hab

theorem body_spec {t t' : Table} {e : TypeExpr} {s : Shape} (ht : t.Tidy)
    (h : t.body e = (.ok s, t')) :
    t'.Tidy ∧ t.Extends t' ∧ t'.BodyOf e s ∧ ∀ c ∈ s.children, c < t'.entries.size := by
  unfold BodyOf
  rcases body_eq_ok h with ⟨k, hk, rfl, rfl⟩ | ⟨hk, hl⟩ <;> rw [hk]
  · exact ⟨ht, .refl _, rfl, by simp [Shape.children]⟩
  · exact lower_spec ht hl

/-- Whether the slots of some of the declarations are filled with their bodies. -/
structure Filled (types done : Declarations) (t : Table) : Prop where
  tidy : t.Tidy
  slot : ∀ {n d}, (slots types).lookup n = some d → ∃ s, t.entries[d]? = some ⟨some n, s⟩
  body : ∀ f ∈ done, ∀ d, (slots types).lookup f.1 = some d → t.BodyOf f.2 (t.shape d)

theorem shape_eq {t : Table} {d : TypeId} {e : Entry} (h : t.entries[d]? = some e) :
    t.shape d = e.shape := by
  rw [shape, h]
  rfl

theorem Filled.extends {types done : Declarations} {t t' : Table} (h : Filled types done t)
    (ht : t'.Tidy) (hx : t.Extends t') : Filled types done t' := by
  have hslot : ∀ {n d}, (slots types).lookup n = some d → t'.entries[d]? = t.entries[d]? :=
    fun hl => hx.entry _ (lt_of_entry (h.slot hl).choose_spec)
  refine ⟨ht, ?_, ?_⟩
  · intro n d hl
    rw [hslot hl]
    exact h.slot hl
  · intro f hf d hl
    have hb := (h.body f hf d hl).mono hx.keeps
    rwa [shape, hslot hl]

/-- One more slot is filled. -/
theorem Filled.setShape {types done : Declarations} {t : Table} (h : Filled types done t)
    {name : String} {e : TypeExpr} {s : Shape} {id : TypeId}
    (hnew : ∀ f ∈ done, f.1 ≠ name) (hid : (slots types).lookup name = some id)
    (hb : t.BodyOf e s) (hc : ∀ c ∈ s.children, c < t.entries.size) :
    Filled types (done ++ [(name, e)]) (t.setShape id s) := by
  obtain ⟨old, hent⟩ := h.slot hid
  have hk := keeps_setShape (s := s) hent rfl
  refine ⟨h.tidy.setShape hent rfl hc, ?_, ?_⟩
  · intro n d hl
    obtain ⟨s', hs'⟩ := h.slot hl
    rw [entry_setShape, hs']
    split_ifs
    · exact ⟨s, rfl⟩
    · exact ⟨s', rfl⟩
  · intro f hf d hl
    rcases List.mem_append.1 hf with hf | hf
    · obtain ⟨s', hs'⟩ := h.slot hl
      have hs : (t.setShape id s).shape d = t.shape d :=
        (shape_eq (entry_setShape_of_name hent hs' (hnew f hf))).trans (shape_eq hs').symm
      rw [hs]
      exact (h.body f hf d hl).mono hk
    · rw [List.mem_singleton.1 hf] at hl ⊢
      obtain rfl := Option.some.inj (hid.symm.trans hl)
      rw [shape_eq (entry_setShape_self hent)]
      exact hb.mono hk

theorem fill_filled {types done rest : Declarations} {t t' : Table}
    (hn : (Fields.names types).Nodup) (hd : done ++ rest.filter (!·.2.isAlias) =
      types.filter (!·.2.isAlias)) (ht : Aliased types ⟨(slots types).entries, t.names⟩)
    (hf : Filled types done t) (h : fill rest t = .ok t') :
    t'.names = t.names ∧ Filled types (types.filter (!·.2.isAlias)) t' := by
  induction rest generalizing done t with
  | nil =>
    rw [fill] at h
    cases h
    rw [List.filter_nil, List.append_nil] at hd
    exact ⟨rfl, hd ▸ hf⟩
  | cons f rest ih =>
    obtain ⟨name, e⟩ := f
    rcases fill_cons_eq_ok.1 h with ⟨ha, h⟩ | ⟨ha, shape, u, hb, h⟩
    · exact ih (by simpa [ha] using hd) ht hf h
    · have hd' : done ++ [(name, e)] ++ rest.filter (!·.2.isAlias) =
          types.filter (!·.2.isAlias) := by
        rw [← hd, List.filter_cons, if_pos (by simp [ha]), List.append_assoc]
        rfl
      obtain ⟨hu, hx, hbody, hc⟩ := body_spec hf.tidy hb
      have hmem : (name, e) ∈ types := by
        have : (name, e) ∈ types.filter (!·.2.isAlias) := by
          rw [← hd']
          simp
        exact List.mem_of_mem_filter this
      obtain ⟨id, hid⟩ :=
        Option.isSome_iff_exists.1 ((slots_slotted types).2 (name, e) hmem ha)
      have hlook : u.lookup name = some id := by
        rw [lookup, hx.names]
        exact ht.kept hid
      rw [fillSlot_of_lookup hlook] at h
      have hnew : ∀ f ∈ done, f.1 ≠ name := by
        have hsub : (Fields.names (types.filter (!·.2.isAlias))).Nodup :=
          hn.sublist (List.filter_sublist.map _)
        rw [← hd', List.append_assoc, Fields.names, List.map_append, List.nodup_append] at hsub
        intro f hf
        exact hsub.2.2 _ (List.mem_map_of_mem hf) _ (by simp)
      have hset := (hf.extends hu hx).setShape hnew hid hbody hc
      have hnames : (u.setShape id shape).names = t.names := hx.names
      obtain ⟨h₁, h₂⟩ := ih hd' (hnames ▸ ht) hset h
      exact ⟨h₁.trans hnames, h₂⟩

theorem slots_tidy (types : Declarations) : (slots types).Tidy := by
  obtain ⟨hs, -⟩ := slots_slotted types
  have hnone : ∀ {d s}, ¬ (slots types).HasInline d s := by
    intro d s h
    obtain ⟨n, hn⟩ := hs.entry h
    cases hn
  refine ⟨fun hl => lt_of_entry (hs.slot hl).1, fun _ => hnone, ?_, fun h => absurd h hnone⟩
  intro d e he c hc
  obtain ⟨n, rfl⟩ := hs.entry he
  simp [Shape.children] at hc

theorem Aliased.tidy {types : Declarations} {t : Table} (h : Aliased types t) : t.Tidy := by
  have hs := slots_tidy types
  have hent : ∀ {n d}, Leads types (slots types) n d →
      ∃ m, (slots types).entries[d]? = some ⟨some m, .pending⟩ := by
    intro n d hl
    induction hl with
    | slot hl => exact ⟨_, ((slots_slotted types).1.slot hl).1⟩
    | through _ _ _ ih => exact ih
  refine ⟨?_, ?_, ?_, ?_⟩
  · intro n d hl
    obtain ⟨m, hm⟩ := hent (h.leads hl)
    rw [h.entries]
    exact lt_of_entry hm
  · intro n d s hl hi
    obtain ⟨m, hm⟩ := hent (h.leads hl)
    rw [HasInline, h.entries, hm] at hi
    cases hi
  · rw [h.entries]
    exact hs.children
  · unfold HasInline
    rw [h.entries]
    exact hs.unique

theorem Aliased.filled {types : Declarations} {t : Table} (h : Aliased types t) :
    Filled types [] t := by
  refine ⟨h.tidy, ?_, by simp⟩
  intro n d hl
  rw [h.entries]
  exact ⟨_, ((slots_slotted types).1.slot hl).1⟩

theorem Aliased.lookup {types : Declarations} {t : Table} (h : Aliased types t)
    (hn : (Fields.names types).Nodup)
    (hbound : ∀ f ∈ types, f.2.isAlias → (t.lookup f.1).isSome) {n : String} {d : TypeId}
    (hl : Leads types (slots types) n d) : t.lookup n = some d := by
  cases hl with
  | slot hl => exact h.kept hl
  | through hg hk hm =>
    obtain ⟨d', hd'⟩ := Option.isSome_iff_exists.1
      (hbound _ ((Fields.get?_eq_some_iff hn).1 hg) (TypeExpr.isAlias_iff.2 ⟨_, rfl, hk⟩))
    rw [hd', (h.leads hd').unique hn (.through hg hk hm)]

theorem ofDeclarations_declares {types : Declarations} {t : Table}
    (hn : (Fields.names types).Nodup) (h : ofDeclarations types = .ok t) : Declares types t := by
  rw [ofDeclarations, bind_eq_ok] at h
  obtain ⟨u, ha, hf⟩ := h
  obtain ⟨hal, -, hbound⟩ := aliases_aliased hn (fun _ h => h) (slots_aliased types) ha
  obtain ⟨hnames, hfilled⟩ := fill_filled (t := u) hn (List.nil_append _)
    ⟨rfl, hal.leads, hal.kept⟩ hal.filled hf
  have hlook : ∀ n, t.lookup n = u.lookup n := fun n => by
    rw [Table.lookup, Table.lookup, hnames]
  have hleads : ∀ {n d}, Leads types (slots types) n d → t.lookup n = some d :=
    fun hl => (hlook _).trans (hal.lookup hn hbound hl)
  refine ⟨hfilled.tidy, ?_, ?_⟩
  · intro n d hl
    rw [hlook] at hl
    have := hal.leads hl
    clear hl
    induction this with
    | slot hl =>
      obtain ⟨e, he, hea⟩ := lookup_own hn hl
      refine .own he hea (hleads (.slot hl)) (hfilled.body (_, e) ?_ _ hl)
      exact List.mem_filter.2 ⟨(Fields.get?_eq_some_iff hn).1 he, by simp [hea]⟩
    | through hg hk hm ih => exact .through hg hk (hleads hm) ih
  · intro n hd
    obtain ⟨e, he⟩ := Option.isSome_iff_exists.1 hd
    have hmem := (Fields.get?_eq_some_iff hn).1 he
    rw [hlook]
    cases hea : e.isAlias with
    | true => exact hbound _ hmem hea
    | false =>
      obtain ⟨d, hd⟩ := Option.isSome_iff_exists.1 ((slots_slotted types).2 (n, e) hmem hea)
      rw [hal.kept hd]
      rfl

end Table

end Conform
