import Conform.Proofs.Schema.Key
import Conform.Proofs.Schema.WellFormed

/-! The table of declarations has keys, and declarations have the shapes that the keys of their
bodies tell. The order of the declarations does not show in any of this. -/

namespace Conform

/-- The key of a declared body. A keyword is itself here, whatever is declared. -/
def TypeExpr.bodyKey (target : String → Option String) (owner : Owner) (e : TypeExpr) : TypeKey :=
  match e.keyword? with
  | some k => .keyword k
  | none => e.key target owner 0

namespace Table

variable {target : String → Option String} {K : TypeId → TypeKey} {f : Owner → Nat} {t t' u : Table}
  {owner : Owner} {d : TypeId} {s : Shape} {types rest : Declarations}

/-- Whether declarations have the shapes of their bodies. -/
def Bodied (types : Declarations) (target : String → Option String) (K : TypeId → TypeKey)
    (t : Table) : Prop :=
  ∀ c ∈ types, c.2.isAlias = false → ∀ d, t.lookup c.1 = some d →
    (t.shape d).Keyed K (c.2.bodyKey target (.declared c.1))

/-! ### Filling slots -/

theorem Keyed.setShape {n : String} {a : Shape} (h : t.Keyed target K f)
    (he : t.entries[d]? = some ⟨some n, a⟩) (hc : ∀ c ∈ s.children, c < t.entries.size) :
    (t.setShape d s).Keyed target K f := by
  have hsize : (t.setShape d s).entries.size = t.entries.size := by simp [Table.setShape]
  refine ⟨h.tidy.setShape he rfl hc, h.targets, fun hx hy => ?_, fun {x m b} hx => ?_,
    fun hx => h.inline ((hasInline_setShape he rfl).1 hx),
    fun hx => h.below ((hasInline_setShape he rfl).1 hx), fun hx => ?_⟩
  · rw [hsize] at hx hy
    exact h.injective hx hy
  · rw [entry_setShape] at hx
    split_ifs at hx with hxd
    · rw [hxd, he] at hx
      cases hx
      rw [hxd]
      exact h.named he
    · exact h.named hx
  · rw [hsize] at hx
    exact h.records hx

theorem body_keyed {e : TypeExpr} (h : t.Keyed target K f) (hb : t.body e = (.ok s, u))
    (hf : f owner = 0) : ∃ K' g, KeepsKeys t K u K' ∧ u.Keyed target K' g ∧
      (∀ o, o ≠ owner → g o = f o) ∧ s.Keyed K' (e.bodyKey target owner) ∧
      ∀ c ∈ s.children, c < u.entries.size := by
  unfold TypeExpr.bodyKey
  rcases body_eq_ok hb with ⟨k, hkey, rfl, rfl⟩ | ⟨hkey, hl⟩ <;> rw [hkey]
  · exact ⟨K, f, .refl _ K, h, fun _ _ => rfl, .keyword, by simp [Shape.children]⟩
  · have hreads : ReadsKey target t K (owner.count e.records f) (e.key target owner (f owner)) _ u :=
      lower_keyed h hl
    obtain ⟨K', g, hkeeps, hk, ⟨hs, hc⟩, hg, -⟩ := hreads
    rw [hf] at hs
    exact ⟨K', _, hkeeps, hk.mono hg, fun o ho => Owner.count_of_ne ho, hs, hc⟩

/-- Filling the slots of declarations gives each the shape of its body, and leaves the others. -/
theorem fill_keyed (h : t.Keyed target K f) (hn : (Fields.names rest).Nodup)
    (hslot : ∀ c ∈ rest, c.2.isAlias = false →
      ∃ d s, t.lookup c.1 = some d ∧ t.entries[d]? = some ⟨some c.1, s⟩)
    (hf : ∀ c ∈ rest, f (.declared c.1) = 0) (hfill : fill rest t = .ok t') :
    ∃ K' g, KeepsKeys t K t' K' ∧ t'.Keyed target K' g ∧ t'.names = t.names ∧
      (∀ o, (∀ n, o ≠ .declared n) → g o = f o) ∧
      (∀ {d : TypeId} {n : String} {s : Shape}, t.entries[d]? = some ⟨some n, s⟩ →
        n ∉ Fields.names rest → t'.entries[d]? = t.entries[d]?) ∧ Bodied rest target K' t' := by
  induction rest generalizing t K f with
  | nil =>
    cases hfill
    exact ⟨K, f, .refl _ K, h, rfl, fun _ _ => rfl, fun _ _ => rfl, fun c hc => by simp at hc⟩
  | cons c rest ih =>
    obtain ⟨name, e⟩ := c
    rw [Fields.names, List.map_cons, List.nodup_cons] at hn
    rcases fill_cons_eq_ok.1 hfill with ⟨ha, hfill⟩ | ⟨ha, s, u, hb, hfill⟩
    · obtain ⟨K', g, hkeeps, hk, hnames, hg, hframe, hbodies⟩ := ih h hn.2
        (fun c hc => hslot c (List.mem_cons_of_mem _ hc))
        (fun c hc => hf c (List.mem_cons_of_mem _ hc)) hfill
      refine ⟨K', g, hkeeps, hk, hnames, hg, fun he hmem => hframe he fun hr =>
        hmem (List.mem_cons_of_mem _ hr), ?_⟩
      intro c hc hca
      rcases List.mem_cons.1 hc with rfl | hc
      · rw [ha] at hca
        cases hca
      · exact hbodies c hc hca
    · have hf₀ : f (.declared name) = 0 := hf (name, e) List.mem_cons_self
      obtain ⟨K₁, g₁, hkeeps₁, hk₁, hg₁, hs, hc⟩ := body_keyed h hb hf₀
      have hu : t.Extends u := (body_spec h.tidy hb).2.1
      obtain ⟨id, a, hid, hent⟩ := hslot (name, e) List.mem_cons_self ha
      have hentu : u.entries[id]? = some ⟨some name, a⟩ :=
        (hu.entry id (lt_of_entry hent)).trans hent
      rw [fillSlot_of_lookup ((hu.keeps.lookup name).trans hid)] at hfill
      -- the slots of other declarations are as they were, for those that are filled later
      have hentry : ∀ {x : TypeId} {n b}, t.entries[x]? = some ⟨some n, b⟩ → n ≠ name →
          (u.setShape id s).entries[x]? = some ⟨some n, b⟩ := fun hx hne =>
        entry_setShape_of_name hentu ((hu.entry _ (lt_of_entry hx)).trans hx) hne
      have hne : ∀ c ∈ rest, c.1 ≠ name := by
        rintro c hc rfl
        exact hn.1 (List.mem_map.2 ⟨c, hc, rfl⟩)
      obtain ⟨K', g, hkeeps, hk, hnames, hg, hframe, hbodies⟩ :=
        ih (t := u.setShape id s) (hk₁.setShape hentu hc) hn.2 (fun c hc hca => by
          obtain ⟨x, b, hx, hxe⟩ := hslot c (List.mem_cons_of_mem _ hc) hca
          exact ⟨x, b, (hu.keeps.lookup c.1).trans hx, hentry hxe (hne c hc)⟩)
        (fun c hc => by
          rw [hg₁ _ (by simpa using hne c hc)]
          exact hf c (List.mem_cons_of_mem _ hc)) hfill
      have hsize : (u.setShape id s).entries.size = u.entries.size := by simp [Table.setShape]
      have hkeeps' : KeepsKeys u K₁ t' K' :=
        ⟨hsize ▸ hkeeps.size, fun x hx => hkeeps.key x (hsize ▸ hx)⟩
      refine ⟨K', g, hkeeps₁.trans hkeeps', hk, hnames.trans hu.names,
        fun o ho => (hg o ho).trans (hg₁ o (ho name)), fun {x n b} hx hmem => ?_, ?_⟩
      · rw [Fields.names, List.map_cons, List.mem_cons, not_or] at hmem
        rw [hframe (hentry hx hmem.1) hmem.2, hentry hx hmem.1, hx]
      · intro c hcm hca x hx
        rcases List.mem_cons.1 hcm with rfl | hcm
        · obtain rfl : id = x := by
            rw [lookup, hnames, ← lookup] at hx
            exact Option.some.inj (((hu.keeps.lookup name).trans hid).symm.trans hx)
          have hset : (u.setShape id s).entries[id]? = some ⟨some name, s⟩ :=
            entry_setShape_self hentu
          rw [shape_eq ((hframe hset hn.1).trans hset)]
          exact hs.congr fun c hcs => hkeeps'.key c (hc c hcs)
        · exact hbodies c hcm hca x hx

/-! ### Declarations -/

theorem slots_entries (types : Declarations) : (slots types).entries.toList =
    (types.filter (!·.2.isAlias)).map fun c => ⟨some c.1, .pending⟩ := by
  suffices h : ∀ t : Table, (types.foldl slot t).entries.toList = t.entries.toList ++
      (types.filter (!·.2.isAlias)).map fun c => ⟨some c.1, .pending⟩ from h empty
  induction types with
  | nil => simp
  | cons c rest ih =>
    intro t
    obtain ⟨name, body⟩ := c
    rw [List.foldl_cons, ih, List.filter_cons]
    cases ha : body.isAlias <;> simp [slot, ha, alloc, bind]

theorem slots_unique (hn : (Fields.names types).Nodup) {x y : TypeId} {n : String} {a b : Shape}
    (hx : (slots types).entries[x]? = some ⟨some n, a⟩)
    (hy : (slots types).entries[y]? = some ⟨some n, b⟩) : x = y := by
  have hnodup : ((slots types).entries.toList.map (·.name)).Nodup := by
    rw [slots_entries, List.map_map]
    have h : (((types.filter (!·.2.isAlias)).map (·.1)).map some).Nodup :=
      List.Nodup.map (fun _ _ => Option.some.inj) (hn.sublist (List.filter_sublist.map _))
    rwa [List.map_map] at h
  have hname : ∀ {i : TypeId} {c : Shape}, (slots types).entries[i]? = some ⟨some n, c⟩ →
      ((slots types).entries.toList.map (·.name))[i]? = some (some n) := by
    intro i c hi
    rw [List.getElem?_map, Array.getElem?_toList, hi]
    rfl
  have hlt := (List.getElem?_eq_some_iff.1 (hname hx)).1
  exact (List.getElem?_inj hlt hnodup).1 ((hname hx).trans (hname hy).symm)

theorem Leads.entry {n : String} (hn : (Fields.names types).Nodup)
    (h : Leads types (slots types) n d) :
    ∃ m, (slots types).entries[d]? = some ⟨some m, .pending⟩ ∧ Refers types n m := by
  induction h with
  | slot hl =>
    obtain ⟨e, he, ha⟩ := lookup_own hn hl
    exact ⟨_, ((slots_slotted types).1.slot hl).1, .own he ha⟩
  | through hg hk _ ih =>
    obtain ⟨m, hm, hr⟩ := ih
    exact ⟨m, hm, .through hg hk hr⟩

def declaration? (t : Table) (n : String) : Option String :=
  (t.lookup n).bind fun d => (t.entries[d]?).bind (·.name)

def slotKey (t : Table) (d : TypeId) : TypeKey :=
  .declared (((t.entries[d]?).bind (·.name)).getD "")

namespace Aliased

variable {n m : String} (h : Aliased types t) (hn : (Fields.names types).Nodup)

include h hn

theorem declaration?_of_lookup (hl : t.lookup n = some d) :
    ∃ m, t.declaration? n = some m ∧ t.slotKey d = .declared m ∧ Refers types n m := by
  obtain ⟨m, hm, hr⟩ := (h.leads hl).entry hn
  rw [← h.entries] at hm
  exact ⟨m, by simp [Table.declaration?, hl, hm], by simp [slotKey, hm], hr⟩

theorem declaration?_iff (hbound : ∀ f ∈ types, f.2.isAlias → (t.lookup f.1).isSome) :
    t.declaration? n = some m ↔ Refers types n m := by
  have hrefers : ∀ {n m}, t.declaration? n = some m → Refers types n m := by
    intro n m ht
    cases hl : t.lookup n with
    | none => simp [Table.declaration?, hl] at ht
    | some d =>
      obtain ⟨m', hm', -, hr⟩ := h.declaration?_of_lookup hn hl
      obtain rfl := Option.some.inj (ht.symm.trans hm')
      exact hr
  refine ⟨hrefers, fun hr => ?_⟩
  have hdeclared : (Fields.get? n types).isSome := by
    cases hr with
    | own hg => rw [hg]; rfl
    | through hg => rw [hg]; rfl
  obtain ⟨d, hd⟩ := Option.isSome_iff_exists.1 ((h.lists hn hbound n).2 hdeclared)
  obtain ⟨m', hm', -, hr'⟩ := h.declaration?_of_lookup hn hd
  rw [hm', hr'.unique hr]

theorem keyed : t.Keyed t.declaration? t.slotKey fun _ => 0 := by
  have hpending : ∀ {d : TypeId} {e : Entry}, t.entries[d]? = some e →
      ∃ n, e = ⟨some n, .pending⟩ := fun he => (slots_slotted types).1.entry (h.entries ▸ he)
  have hinline : ∀ {d s}, ¬ t.HasInline d s := by
    intro d s hd
    obtain ⟨n, hd⟩ := hpending hd
    cases hd
  refine ⟨h.tidy, fun n => ?_, fun {x y} hx hy hxy => ?_, fun {x n s} hx => ?_,
    fun hd => absurd hd hinline, fun hd => absurd hd hinline, fun {d o n fs} _ hk => ?_⟩
  · cases hl : t.lookup n with
    | none => simp [Table.declaration?, hl]
    | some d =>
      obtain ⟨m, hm, hd, -⟩ := h.declaration?_of_lookup hn hl
      rw [hm, Option.map_some, Option.map_some, hd]
  · obtain ⟨n, hxn⟩ := hpending (Array.getElem?_eq_getElem hx)
    obtain ⟨m, hym⟩ := hpending (Array.getElem?_eq_getElem hy)
    have hxe := Array.getElem?_eq_getElem hx
    have hye := Array.getElem?_eq_getElem hy
    rw [hxn] at hxe
    rw [hym] at hye
    obtain rfl : n = m := by simpa [slotKey, hxe, hye] using hxy
    rw [h.entries] at hxe hye
    exact slots_unique hn hxe hye
  · refine ⟨by simp [slotKey, hx], ?_⟩
    have hxs := hx
    rw [h.entries] at hxs
    have hmem : (⟨some n, s⟩ : Entry) ∈ (slots types).entries.toList :=
      (Array.mem_of_getElem? hxs).val
    rw [slots_entries] at hmem
    obtain ⟨c, hc, hcn⟩ := List.mem_map.1 hmem
    obtain rfl : c.1 = n := by simpa using congrArg Entry.name hcn
    obtain ⟨hc, ha⟩ := List.mem_filter.1 hc
    obtain ⟨d, hd⟩ := Option.isSome_iff_exists.1
      ((slots_slotted types).2 c hc (by simpa using ha))
    have hentry := ((slots_slotted types).1.slot hd).1
    rw [← h.entries] at hentry
    simp [Table.declaration?, h.kept hd, hentry]
  · cases hk

end Aliased

/-- The table of declarations has keys, where names refer to what declarations say. -/
theorem ofDeclarations_keyed (hn : (Fields.names types).Nodup)
    (h : ofDeclarations types = .ok t) :
    ∃ target K f, t.Keyed target K f ∧ (∀ n m, target n = some m ↔ Refers types n m) ∧
      (∀ o, (∀ n, o ≠ .declared n) → f o = 0) ∧ Bodied types target K t := by
  rw [ofDeclarations, bind_eq_ok] at h
  obtain ⟨u, ha, hfill⟩ := h
  obtain ⟨hal, -, hbound⟩ := aliases_aliased hn (fun _ h => h) (slots_aliased types) ha
  have hslot : ∀ c ∈ types, c.2.isAlias = false →
      ∃ d s, u.lookup c.1 = some d ∧ u.entries[d]? = some ⟨some c.1, s⟩ := by
    intro c hc hca
    obtain ⟨d, hd⟩ := Option.isSome_iff_exists.1 ((slots_slotted types).2 c hc hca)
    exact ⟨d, .pending, hal.kept hd, hal.entries ▸ ((slots_slotted types).1.slot hd).1⟩
  obtain ⟨K, f, -, hk, -, hf, -, hbodies⟩ :=
    fill_keyed (hal.keyed hn) hn hslot (fun _ _ => rfl) hfill
  exact ⟨u.declaration?, K, f, hk, fun n m => hal.declaration?_iff hn hbound, hf, hbodies⟩

end Table

end Conform
