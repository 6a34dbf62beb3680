import Conform.Proofs.Schema.Interning

/-! One table found in another one under other numbers. Interning an expression in both leads to
the same entry, and whether it can be interned depends on the declared names alone. -/

namespace Conform

theorem eq_of_map {α β : Type} {f : α → β} {as bs : List α} (h : as.map f = bs.map f)
    (hf : ∀ a ∈ as, ∀ b ∈ bs, f a = f b → a = b) : as = bs := by
  induction as generalizing bs with
  | nil => exact (List.map_eq_nil_iff.1 h.symm).symm
  | cons a as ih =>
    cases bs with
    | nil => cases h
    | cons b bs =>
      obtain ⟨hab, hrest⟩ := List.cons.inj h
      rw [hf a (by simp) b (by simp) hab,
        ih hrest fun a ha b hb => hf a (by simp [ha]) b (by simp [hb])]

namespace Shape

variable {a b s : Shape} {f g : TypeId → TypeId}

/-- A shape under other numbers. -/
def rename (f : TypeId → TypeId) : Shape → Shape
  | .array d => .array (f d)
  | .union ds => .union (ds.map f)
  | .record fs => .record (fs.map fun c => (c.1, f c.2))
  | s => s

theorem rename_id (s : Shape) : s.rename id = s := by
  cases s <;> simp [rename]

theorem rename_congr (h : ∀ c ∈ s.children, f c = g c) : s.rename f = s.rename g := by
  cases s with
  | array d => simpa [rename, children] using h
  | union ds => simpa [rename, children] using h
  | record fs =>
    simp only [rename, record.injEq]
    refine List.map_congr_left fun c hc => ?_
    rw [h c.2 (List.mem_map_of_mem hc)]
  | _ => rfl

theorem normal_rename (s : Shape) : (s.rename f).normal = s.normal.rename f := by
  cases s <;> rfl

theorem isShared_rename (s : Shape) : (s.rename f).isShared = s.isShared := by
  cases s <;> rfl

theorem trait?_rename (s : Shape) : (s.rename f).trait? = s.trait? := by
  cases s <;> rfl

theorem trait?_normal (s : Shape) : s.normal.trait? = s.trait? := by
  cases s with
  | literal l => cases l <;> rfl
  | _ => rfl

/-- Shapes that are one type under other numbers are one type. -/
theorem normal_of_rename (hf : ∀ x ∈ a.children, ∀ y ∈ b.children, f x = f y → x = y)
    (h : (a.rename f).normal = (b.rename f).normal) : a.normal = b.normal := by
  cases a with
  | array d =>
    cases b with
    | array d' =>
      have hd : f d = f d' := by simpa [rename, normal] using h
      rw [hf d (by simp [children]) d' (by simp [children]) hd]
    | _ => cases h
  | union ds =>
    cases b with
    | union ds' =>
      have hd : ds.map f = ds'.map f := by simpa [rename, normal] using h
      rw [eq_of_map hd hf]
    | _ => cases h
  | record fs =>
    cases b with
    | record fs' =>
      have hd : fs.map (fun c => (c.1, f c.2)) = fs'.map fun c => (c.1, f c.2) := by
        simpa only [rename, normal, record.injEq] using h
      rw [eq_of_map hd]
      intro c hc c' hc' he
      obtain ⟨hname, hid⟩ := Prod.mk.inj he
      exact Prod.ext hname (hf _ (List.mem_map_of_mem hc) _ (List.mem_map_of_mem hc') hid)
    | _ => cases h
  | _ => cases b <;> first | exact h | cases h

end Shape

namespace Table

variable {t t' u u' : Table} {f g : TypeId → TypeId}

/-- Whether the entries of a table are those of another one under other numbers. Declared names
have the same number in both. -/
structure Embeds (f : TypeId → TypeId) (t t' : Table) : Prop where
  names : t'.names = t.names
  declared : ∀ {n d}, t.lookup n = some d → f d = d
  injective : ∀ {x y}, x < t.entries.size → y < t.entries.size → f x = f y → x = y
  entry : ∀ {d : TypeId} {e : Entry}, t.entries[d]? = some e →
    ∃ e', t'.entries[f d]? = some e' ∧ e'.name = e.name ∧
      e'.shape.normal = (e.shape.rename f).normal

theorem embeds_id (t : Table) : t.Embeds id t :=
  ⟨rfl, fun _ => rfl, fun _ _ h => h, fun h => ⟨_, h, rfl, by rw [Shape.rename_id]⟩⟩

namespace Embeds

theorem grow (h : t.Embeds f t') (hx : t'.Extends u') : t.Embeds f u' := by
  refine ⟨hx.names.trans h.names, h.declared, h.injective, fun hd => ?_⟩
  obtain ⟨e', he', h'⟩ := h.entry hd
  exact ⟨e', (hx.entry _ (lt_of_entry he')).trans he', h'⟩

theorem lookup (h : t.Embeds f t') (n : String) : t'.lookup n = t.lookup n := by
  rw [Table.lookup, Table.lookup, h.names]

theorem alloc (h : t.Embeds f t') (ht : t.Tidy) {s : Shape} {d' : TypeId}
    (hc : ∀ c ∈ s.children, c < t.entries.size) (e' : Entry) (hd' : t'.entries[d']? = some e')
    (hname : e'.name = none) (hs : e'.shape.normal = (s.rename f).normal)
    (hnew : ∀ x < t.entries.size, f x ≠ d') :
    (t.alloc ⟨none, s⟩).2.Embeds (Function.update f t.entries.size d') t' := by
  have hold : ∀ x < t.entries.size, Function.update f t.entries.size d' x = f x :=
    fun x hx => Function.update_of_ne (Nat.ne_of_lt hx) _ _
  have hsize : (t.alloc ⟨none, s⟩).2.entries.size = t.entries.size + 1 := by simp [Table.alloc]
  refine ⟨h.names, fun hn => ?_, fun {x y} hx hy hxy => ?_, fun {d e} hd => ?_⟩
  · rw [hold _ (ht.names hn)]
    exact h.declared hn
  · rw [hsize] at hx hy
    rcases Nat.lt_succ_iff_lt_or_eq.1 hx with hx | rfl
    · rcases Nat.lt_succ_iff_lt_or_eq.1 hy with hy | rfl
      · rw [hold x hx, hold y hy] at hxy
        exact h.injective hx hy hxy
      · rw [hold x hx, Function.update_self] at hxy
        exact absurd hxy (hnew x hx)
    · rcases Nat.lt_succ_iff_lt_or_eq.1 hy with hy | rfl
      · rw [hold y hy, Function.update_self] at hxy
        exact absurd hxy.symm (hnew y hy)
      · rfl
  · rw [entry_alloc] at hd
    split_ifs at hd with he
    · obtain rfl := Option.some.inj hd
      refine ⟨e', by rw [he, Function.update_self, hd'], hname, ?_⟩
      rw [hs, Shape.rename_congr fun c hc' => hold c (hc c hc')]
    · obtain ⟨e'', he'', hn, hs''⟩ := h.entry hd
      refine ⟨e'', by rw [hold d (lt_of_entry hd), he''], hn, ?_⟩
      rw [hs'', Shape.rename_congr fun c hc' => hold c (ht.children hd c hc')]

/-- An inline shape has an entry in both tables, or in the second one only, or in neither. -/
theorem inline (h : t.Embeds f t') (ht : t.Tidy) (ht' : t'.Tidy) {s s' : Shape}
    (hc : ∀ c ∈ s.children, c < t.entries.size) (hs : s'.normal = (s.rename f).normal) :
    ∃ g, (∀ c < t.entries.size, g c = f c) ∧ (t.inline s).2.Embeds g (t'.inline s').2 ∧
      (t'.inline s').1 = g (t.inline s).1 := by
  have hold : ∀ {d'} c, c < t.entries.size → Function.update f t.entries.size d' c = f c :=
    fun c hc => Function.update_of_ne (Nat.ne_of_lt hc) _ _
  have hself : ∀ {d'}, d' = Function.update f t.entries.size d' t.entries.size := by simp
  rcases t.inline_cases s with ⟨d, a, hd, ha, hi⟩ | ⟨hnone, hi⟩
  · obtain ⟨⟨-, a'⟩, hd', rfl, ha'⟩ := h.entry hd
    rw [Shape.same_iff] at ha
    have hsame : a'.same s' := by
      rw [Shape.same_iff]
      refine ⟨?_, by rw [ha', hs, Shape.normal_rename, ha.2, Shape.normal_rename]⟩
      rw [Shape.isShared_of_normal ha', Shape.isShared_rename, ha.1]
    rw [hi, inline_of_hasInline ht' hd' hsame]
    exact ⟨f, fun _ _ => rfl, h, rfl⟩
  · rw [hi]
    rcases t'.inline_cases s' with ⟨d', a', hd', ha', hi'⟩ | ⟨-, hi'⟩
    · rw [hi']
      rw [Shape.same_iff] at ha'
      refine ⟨Function.update f t.entries.size d', hold, ?_, hself⟩
      refine h.alloc ht hc _ hd' rfl (ha'.2.trans hs) ?_
      -- an entry that leads to it already would be one of the same shape in the first table
      rintro x hx rfl
      obtain ⟨e', he', hname, hshape⟩ := h.entry (Array.getElem?_eq_getElem hx)
      obtain rfl := Option.some.inj (hd'.symm.trans he')
      have hinline : t.HasInline x t.entries[x].shape := by
        rw [HasInline, Array.getElem?_eq_getElem hx, show (none : Option String) = _ from hname]
      have hsame : t.entries[x].shape.same s := by
        rw [Shape.same_iff]
        refine ⟨?_, ?_⟩
        · rw [← Shape.isShared_rename, ← Shape.isShared_of_normal hshape, ha'.1]
        · refine Shape.normal_of_rename (f := f) (fun c hc' c' hc'' => ?_) ?_
          · exact h.injective (ht.children hinline c hc') (hc c' hc'')
          · exact hshape.symm.trans (ha'.2.trans hs)
      rw [hnone hinline] at hsame
      cases hsame
    · rw [hi']
      refine ⟨Function.update f t.entries.size t'.entries.size, hold, ?_, hself⟩
      refine (h.grow (extends_alloc t' _)).alloc ht hc ⟨none, s'⟩ ?_ rfl hs ?_
      · rw [entry_alloc]
        exact if_pos rfl
      · intro x hx he
        obtain ⟨e', he', -⟩ := h.entry (Array.getElem?_eq_getElem hx)
        rw [he] at he'
        exact Nat.lt_irrefl _ (lt_of_entry he')

end Embeds

/-- Whether an expression came to the same in another table. -/
def Lowered.Renames (f : TypeId → TypeId) : Lowered → Lowered → Prop
  | .known d, .known d' => d' = f d
  | .fresh s, .fresh s' => s'.normal = (s.rename f).normal
  | _, _ => False

theorem settle_embeds {e : TypeExpr} {d d' : TypeId} (ht : t.Tidy) (ht' : t'.Tidy)
    (hg : ∀ {l v l' v'}, t.lower e = (.ok l, v) → t'.lower e = (.ok l', v') →
      ∃ g, (∀ c < t.entries.size, g c = f c) ∧ v.Embeds g v' ∧ l.Renames g l')
    (h : settle (t.lower e) = (.ok d, u)) (h' : settle (t'.lower e) = (.ok d', u')) :
    ∃ g, (∀ c < t.entries.size, g c = f c) ∧ u.Embeds g u' ∧ d' = g d := by
  rcases settle_eq_ok h with hl | ⟨s, v, hl, hi⟩ <;>
    rcases settle_eq_ok h' with hl' | ⟨s', v', hl', hi'⟩ <;>
    obtain ⟨g, hold, hv, hr⟩ := hg hl hl'
  · exact ⟨g, hold, hv, hr⟩
  · exact hr.elim
  · exact hr.elim
  · obtain ⟨hv₁, hx, -, hc⟩ := lower_spec ht hl
    obtain ⟨hv₁', -⟩ := lower_spec ht' hl'
    obtain ⟨g', hold', hu, hd⟩ := hv.inline hv₁ hv₁' hc hr
    rw [hi, hi'] at hu hd
    exact ⟨g', fun c hc => (hold' c (Nat.lt_of_lt_of_le hc hx.size)).trans (hold c hc), hu, hd⟩

mutual

theorem lower_embeds {f : TypeId → TypeId} {t t' u u' : Table} {e : TypeExpr} {l l' : Lowered}
    (ht : t.Tidy) (ht' : t'.Tidy) (h : t.Embeds f t') (hl : t.lower e = (.ok l, u))
    (hl' : t'.lower e = (.ok l', u')) :
    ∃ g, (∀ c < t.entries.size, g c = f c) ∧ u.Embeds g u' ∧ l.Renames g l' := by
  cases e with
  | name n =>
    rw [lower, h.lookup] at hl'
    rw [lower] at hl
    split at hl <;> cases hl
    · rename_i d hn
      rw [hn] at hl'
      cases hl'
      exact ⟨f, fun _ _ => rfl, h, (h.declared hn).symm⟩
    · rename_i k hn hk
      rw [hn, hk] at hl'
      cases hl'
      exact ⟨f, fun _ _ => rfl, h, rfl⟩
  | literal value =>
    rw [lower] at hl hl'
    cases hl
    cases hl'
    exact ⟨f, fun _ _ => rfl, h, rfl⟩
  | bigint text =>
    rw [lower] at hl hl'
    split at hl <;> cases hl
    rename_i i hi
    rw [hi] at hl'
    cases hl'
    exact ⟨f, fun _ _ => rfl, h, rfl⟩
  | array element =>
    rw [lower] at hl hl'
    obtain ⟨d, hs, rfl⟩ := shaped_eq_ok hl
    obtain ⟨d', hs', rfl⟩ := shaped_eq_ok hl'
    obtain ⟨g, hold, hu, rfl⟩ :=
      settle_embeds ht ht' (fun hl hl' => lower_embeds (e := element) ht ht' h hl hl') hs hs'
    exact ⟨g, hold, hu, rfl⟩
  | union members =>
    rw [lower] at hl hl'
    obtain ⟨ds, hs, rfl⟩ := shaped_eq_ok hl
    obtain ⟨ds', hs', rfl⟩ := shaped_eq_ok hl'
    obtain ⟨g, hold, hu, rfl⟩ := internAll_embeds ht ht' h hs hs'
    exact ⟨g, hold, hu, rfl⟩
  | record fields =>
    rw [lower] at hl hl'
    obtain ⟨ds, hs, rfl⟩ := shaped_eq_ok hl
    obtain ⟨ds', hs', rfl⟩ := shaped_eq_ok hl'
    obtain ⟨g, hold, hu, rfl⟩ := internFields_embeds ht ht' h hs hs'
    exact ⟨g, hold, hu, rfl⟩

theorem internAll_embeds {f : TypeId → TypeId} {t t' u u' : Table} {es : List TypeExpr}
    {ds ds' : List TypeId} (ht : t.Tidy) (ht' : t'.Tidy) (h : t.Embeds f t')
    (hl : t.internAll es = (.ok ds, u)) (hl' : t'.internAll es = (.ok ds', u')) :
    ∃ g, (∀ c < t.entries.size, g c = f c) ∧ u.Embeds g u' ∧ ds' = ds.map g := by
  cases es with
  | nil =>
    rw [internAll] at hl hl'
    cases hl
    cases hl'
    exact ⟨f, fun _ _ => rfl, h, rfl⟩
  | cons e es =>
    obtain ⟨d, t₁, ds₁, hs, hes, rfl⟩ := internAll_cons_eq_ok.1 hl
    obtain ⟨d', t₁', ds₁', hs', hes', rfl⟩ := internAll_cons_eq_ok.1 hl'
    obtain ⟨g, hold, hu, rfl⟩ :=
      settle_embeds ht ht' (fun hl hl' => lower_embeds (e := e) ht ht' h hl hl') hs hs'
    obtain ⟨ht₁, hx, hd⟩ := intern_spec ht hs
    obtain ⟨g', hold', hu', rfl⟩ := internAll_embeds ht₁ (intern_spec ht' hs').1 hu hes hes'
    refine ⟨g', fun c hc => ?_, hu', ?_⟩
    · exact (hold' c (Nat.lt_of_lt_of_le hc hx.size)).trans (hold c hc)
    · rw [List.map_cons, hold' d (hd.lt ht₁)]

theorem internFields_embeds {f : TypeId → TypeId} {t t' u u' : Table}
    {fs : List (String × TypeExpr)} {ds ds' : List (String × TypeId)} (ht : t.Tidy)
    (ht' : t'.Tidy) (h : t.Embeds f t') (hl : t.internFields fs = (.ok ds, u))
    (hl' : t'.internFields fs = (.ok ds', u')) :
    ∃ g, (∀ c < t.entries.size, g c = f c) ∧ u.Embeds g u' ∧
      ds' = ds.map fun c => (c.1, g c.2) := by
  cases fs with
  | nil =>
    rw [internFields] at hl hl'
    cases hl
    cases hl'
    exact ⟨f, fun _ _ => rfl, h, rfl⟩
  | cons c fs =>
    obtain ⟨name, e⟩ := c
    obtain ⟨d, t₁, ds₁, hs, hes, rfl⟩ := internFields_cons_eq_ok.1 hl
    obtain ⟨d', t₁', ds₁', hs', hes', rfl⟩ := internFields_cons_eq_ok.1 hl'
    obtain ⟨g, hold, hu, rfl⟩ :=
      settle_embeds ht ht' (fun hl hl' => lower_embeds (e := e) ht ht' h hl hl') hs hs'
    obtain ⟨ht₁, hx, hd⟩ := intern_spec ht hs
    obtain ⟨g', hold', hu', rfl⟩ := internFields_embeds ht₁ (intern_spec ht' hs').1 hu hes hes'
    refine ⟨g', fun c hc => ?_, hu', ?_⟩
    · exact (hold' c (Nat.lt_of_lt_of_le hc hx.size)).trans (hold c hc)
    · rw [List.map_cons, hold' d (hd.lt ht₁)]

end

theorem intern_embeds {e : TypeExpr} {d d' : TypeId} (ht : t.Tidy) (ht' : t'.Tidy)
    (h : t.Embeds f t') (hi : t.intern e = (.ok d, u)) (hi' : t'.intern e = (.ok d', u')) :
    ∃ g, (∀ c < t.entries.size, g c = f c) ∧ u.Embeds g u' ∧ d' = g d :=
  settle_embeds ht ht' (fun hl hl' => lower_embeds ht ht' h hl hl') hi hi'

end Table

end Conform
