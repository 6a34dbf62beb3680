import Conform.Proofs.Schema.Distinct

/-! Decoded documents have each type once, and each field once in each record: of one that is given
again the last value counts. -/

namespace Conform

namespace Fields

variable {α : Type _}

theorem mem_names_put {key name : String} {value : α} {fs : List (String × α)} :
    name ∈ names (put key value fs) ↔ name = key ∨ name ∈ names fs := by
  induction fs with
  | nil => simp [put, names]
  | cons f fs ih =>
    obtain ⟨k, v⟩ := f
    rw [put]
    split_ifs with hk
    · simp [names, hk]
    · rw [names, List.map_cons, List.mem_cons]
      change name = k ∨ name ∈ names (put key value fs) ↔ name = key ∨ name ∈ k :: names fs
      rw [ih, List.mem_cons]
      tauto

theorem nodup_names_put {key : String} {value : α} {fs : List (String × α)}
    (h : (names fs).Nodup) : (names (put key value fs)).Nodup := by
  induction fs with
  | nil => simp [put, names]
  | cons f fs ih =>
    obtain ⟨k, v⟩ := f
    rw [names, List.map_cons, List.nodup_cons] at h
    rw [put]
    split_ifs with hk
    · subst hk
      rw [names, List.map_cons, List.nodup_cons]
      exact h
    · rw [names, List.map_cons, List.nodup_cons]
      refine ⟨fun hmem => ?_, ih h.2⟩
      rcases mem_names_put.1 hmem with he | hmem
      · exact hk he
      · exact h.1 hmem

theorem nodup_names_collect (fs : List (String × α)) : (names (collect fs)).Nodup := by
  suffices h : ∀ acc : List (String × α), (names acc).Nodup →
      (names (fs.foldl (fun acc f => put f.1 f.2 acc) acc)).Nodup from h [] List.nodup_nil
  induction fs with
  | nil => exact fun acc h => h
  | cons f fs ih => exact fun acc h => ih _ (nodup_names_put h)

theorem mem_put {key : String} {value : α} {fs : List (String × α)} {f : String × α}
    (h : f ∈ put key value fs) : f = (key, value) ∨ f ∈ fs := by
  induction fs with
  | nil => exact Or.inl (List.mem_singleton.1 h)
  | cons g fs ih =>
    obtain ⟨k, v⟩ := g
    rw [put] at h
    split_ifs at h with hk
    · exact (List.mem_cons.1 h).imp_right (List.mem_cons_of_mem _)
    · rcases List.mem_cons.1 h with rfl | h
      · exact Or.inr (by simp)
      · exact (ih h).imp_right (List.mem_cons_of_mem _)

theorem mem_collect {fs : List (String × α)} {f : String × α} (h : f ∈ collect fs) : f ∈ fs := by
  suffices hs : ∀ acc : List (String × α), f ∈ fs.foldl (fun acc f => put f.1 f.2 acc) acc →
      f ∈ acc ∨ f ∈ fs by simpa using hs [] h
  clear h
  induction fs with
  | nil => exact fun acc h => Or.inl h
  | cons g fs ih =>
    intro acc h
    rcases ih _ h with h | h
    · rcases mem_put h with rfl | h
      · exact Or.inr (by simp)
      · exact Or.inl h
    · exact Or.inr (List.mem_cons_of_mem _ h)

end Fields

namespace Decode

open Json

/-! ### Type expressions -/

mutual

theorem typeExpr?_distinct {t : Tree} {e : TypeExpr} (h : typeExpr? t = some e) : e.Distinct := by
  unfold typeExpr? at h
  split at h
  · cases h
    trivial
  · rename_i key value close stop start
    split_ifs at h
    · obtain ⟨l, -, rfl⟩ := Option.map_eq_some_iff.1 h
      trivial
    · obtain ⟨s, -, rfl⟩ := Option.map_eq_some_iff.1 h
      trivial
    · obtain ⟨element, he, rfl⟩ := Option.map_eq_some_iff.1 h
      exact typeExpr?_distinct (e := element) he
    · split at h
      · obtain ⟨es, hes, rfl⟩ := Option.map_eq_some_iff.1 h
        exact allDistinct_iff.2 (typeExprs?_distinct hes)
      · cases h
    · split at h
      · obtain ⟨fs, hfs, rfl⟩ := Option.map_eq_some_iff.1 h
        exact ⟨Fields.nodup_names_collect fs, fieldsDistinct_iff.2 fun f hf =>
          fieldExprs?_distinct hfs f (Fields.mem_collect hf)⟩
      · cases h
  · cases h

theorem typeExprs?_distinct {is : Items} {es : List TypeExpr} (h : typeExprs? is = some es) :
    ∀ e ∈ es, e.Distinct := by
  cases is with
  | closed offset =>
    rw [typeExprs?] at h
    cases h
    simp
  | stopped s =>
    rw [typeExprs?] at h
    cases h
  | cons value close rest =>
    rw [typeExprs?] at h
    obtain ⟨e, he, h⟩ := Option.bind_eq_some_iff.1 h
    obtain ⟨es', hes, h⟩ := Option.bind_eq_some_iff.1 h
    cases h
    intro x hx
    rcases List.mem_cons.1 hx with rfl | hx
    · exact typeExpr?_distinct he
    · exact typeExprs?_distinct hes x hx

theorem fieldExprs?_distinct {es : Entries} {fs : List (String × TypeExpr)}
    (h : fieldExprs? es = some fs) : ∀ f ∈ fs, f.2.Distinct := by
  cases es with
  | closed offset =>
    rw [fieldExprs?] at h
    cases h
    simp
  | stopped s => simp [fieldExprs?] at h
  | noValue key s => simp [fieldExprs?] at h
  | cons key value close rest =>
    rw [fieldExprs?] at h
    obtain ⟨e, he, h⟩ := Option.bind_eq_some_iff.1 h
    obtain ⟨fs', hfs, h⟩ := Option.bind_eq_some_iff.1 h
    cases h
    intro x hx
    rcases List.mem_cons.1 hx with rfl | hx
    · exact typeExpr?_distinct he
    · exact fieldExprs?_distinct hfs x hx

end

theorem typeExpr_distinct {t : Tree} {e : TypeExpr} (h : typeExpr t = .ok e) : e.Distinct := by
  unfold typeExpr at h
  split at h
  · cases h
  · split at h <;> cases h
    rename_i he
    exact typeExpr?_distinct he

/-! ### Structures and lists -/

variable {α : Type}

/-- Whether setting any of some fields keeps a property. -/
def Keeps (P : α → Prop) (fields : List (Field α)) : Prop :=
  ∀ f ∈ fields, ∀ a t a', P a → f.set a t = .ok a' → P a'

theorem Struct.ofEntries_keeps {P : α → Prop} {st : Struct α} (hs : Keeps P st.fields)
    {seen : List String} {a a' : α} {es : Entries} (ha : P a)
    (h : st.ofEntries seen a es = .ok a') : P a' := by
  cases es with
  | closed offset =>
    rw [ofEntries] at h
    split at h <;> cases h
    exact ha
  | stopped s =>
    rw [ofEntries] at h
    cases h
  | noValue key s =>
    rw [ofEntries] at h
    obtain ⟨f, -, h⟩ := bind_eq_ok.1 h
    cases h
  | cons key value close rest =>
    rw [ofEntries] at h
    obtain ⟨f, hf, h⟩ := bind_eq_ok.1 h
    obtain ⟨b, hb, h⟩ := bind_eq_ok.1 h
    have hmem : f ∈ st.fields := by
      unfold field at hf
      split at hf
      · cases hf
      · rename_i f' hfind
        split_ifs at hf
        cases hf
        exact List.mem_of_find?_eq_some hfind
    exact ofEntries_keeps hs (hs f hmem _ _ _ ha (mapError_eq_ok.1 hb)) h

theorem Struct.ofItems_keeps {P : α → Prop} {src : Source} {st : Struct α} {fs : List (Field α)}
    (hs : Keeps P fs) {index close : Nat} {a a' : α} {is : Items} (ha : P a)
    (h : ofItems src st a fs index close is = .ok a') : P a' := by
  induction fs generalizing a index close is with
  | nil =>
    cases is with
    | closed offset =>
      rw [ofItems] at h
      cases h
      exact ha
    | stopped s =>
      rw [ofItems] at h
      cases h
    | cons value c rest =>
      cases src <;> rw [ofItems] at h <;> cases h
  | cons f fs ih =>
    have hrest : Keeps P fs := fun g hg => hs g (List.mem_cons_of_mem _ hg)
    cases is with
    | closed offset =>
      rw [ofItems] at h
      split_ifs at h
      exact ih hrest ha h
    | stopped s =>
      rw [ofItems] at h
      cases h
    | cons value c rest =>
      rw [ofItems] at h
      obtain ⟨b, hb, h⟩ := bind_eq_ok.1 h
      exact ih hrest (hs f (by simp) _ _ _ ha (mapError_eq_ok.1 hb)) h

theorem mismatch_ne_ok {wanted : String} {t : Tree} {a : α} : mismatch wanted t ≠ .ok a := by
  cases t <;> simp [mismatch, stopped]

/-- A property that every field of a structure keeps holds of what is decoded. -/
theorem Struct.decode_keeps {P : α → Prop} {src : Source} {st : Struct α}
    (hs : Keeps P st.fields) {init a : α} {t : Tree} (hinit : P init)
    (h : st.decode src init t = .ok a) : P a := by
  unfold decode at h
  split at h
  · exact ofEntries_keeps hs hinit h
  · exact ofItems_keeps hs hinit h
  · exact absurd h mismatch_ne_ok

theorem items_all {P : α → Prop} {decode : Tree → Decoded α} (hd : ∀ t a, decode t = .ok a → P a)
    {index : Nat} {is : Items} {as : List α} (h : items decode index is = .ok as) :
    ∀ a ∈ as, P a := by
  cases is with
  | closed offset =>
    rw [items] at h
    cases h
    simp
  | stopped s =>
    rw [items] at h
    cases h
  | cons value close rest =>
    rw [items] at h
    obtain ⟨b, hb, h⟩ := bind_eq_ok.1 h
    obtain ⟨bs, hbs, h⟩ := bind_eq_ok.1 h
    cases h
    intro a ha
    rcases List.mem_cons.1 ha with rfl | ha
    · exact hd _ _ (mapError_eq_ok.1 hb)
    · exact items_all hd hbs a ha

theorem list_all {P : α → Prop} {decode : Tree → Decoded α} (hd : ∀ t a, decode t = .ok a → P a)
    {t : Tree} {as : List α} (h : list decode t = .ok as) : ∀ a ∈ as, P a := by
  unfold list at h
  split at h
  · exact items_all hd h
  · exact absurd h mismatch_ne_ok

theorem entries_all {P : α → Prop} {decode : Tree → Decoded α}
    (hd : ∀ t a, decode t = .ok a → P a) {done as : List (String × α)} {es : Entries}
    (hdone : ∀ a ∈ done, P a.2) (h : entries decode done es = .ok as) : ∀ a ∈ as, P a.2 := by
  cases es with
  | closed offset =>
    rw [entries] at h
    cases h
    exact hdone
  | stopped s =>
    rw [entries] at h
    cases h
  | noValue key s =>
    rw [entries] at h
    cases h
  | cons key value close rest =>
    rw [entries] at h
    obtain ⟨b, hb, h⟩ := bind_eq_ok.1 h
    refine entries_all hd (fun a ha => ?_) h
    rcases Fields.mem_put ha with rfl | ha
    · exact hd _ _ (mapError_eq_ok.1 hb)
    · exact hdone a ha

theorem entries_names {decode : Tree → Decoded α} {done as : List (String × α)} {es : Entries}
    (hdone : (Fields.names done).Nodup) (h : entries decode done es = .ok as) :
    (Fields.names as).Nodup := by
  cases es with
  | closed offset =>
    rw [entries] at h
    cases h
    exact hdone
  | stopped s =>
    rw [entries] at h
    cases h
  | noValue key s =>
    rw [entries] at h
    cases h
  | cons key value close rest =>
    rw [entries] at h
    obtain ⟨b, -, h⟩ := bind_eq_ok.1 h
    exact entries_names (Fields.nodup_names_put hdone) h

theorem map_names {decode : Tree → Decoded α} {t : Tree} {as : List (String × α)}
    (h : map decode t = .ok as) : (Fields.names as).Nodup := by
  unfold map at h
  split at h
  · exact entries_names (by simp [Fields.names]) h
  · exact absurd h mismatch_ne_ok

/-! ### Documents -/

theorem conversionSpec_distinct {src : Source} {t : Tree} {c : ConversionSpec}
    (h : conversionSpec src t = .ok c) : c.type.Distinct := by
  refine Struct.decode_keeps (P := fun c => c.type.Distinct) ?_ trivial h
  intro f hf a t a' ha hset
  simp only [List.mem_cons, List.not_mem_nil, or_false] at hf
  rcases hf with rfl | rfl | rfl <;> obtain ⟨x, hx, hset⟩ := bind_eq_ok.1 hset <;> cases hset
  · exact typeExpr_distinct hx
  · exact ha
  · exact ha

theorem generateSpec_distinct {src : Source} {t : Tree} {g : GenerateSpec}
    (h : generateSpec src t = .ok g) : g.type.Distinct := by
  refine Struct.decode_keeps (P := fun g => g.type.Distinct) ?_ trivial h
  intro f hf a t a' ha hset
  simp only [List.mem_cons, List.not_mem_nil, or_false] at hf
  rcases hf with rfl | rfl <;> obtain ⟨x, hx, hset⟩ := bind_eq_ok.1 hset <;> cases hset
  · exact ha
  · exact typeExpr_distinct hx

theorem document_distinct {src : Source} {t : Tree} {doc : Document}
    (h : document src t = .ok doc) : doc.Distinct := by
  refine Struct.decode_keeps (P := Document.Distinct) ?_ ?_ h
  · intro f hf a t a' ha hset
    simp only [List.mem_cons, List.not_mem_nil, or_false] at hf
    rcases hf with rfl | rfl | rfl | rfl | rfl <;> obtain ⟨x, hx, hset⟩ := bind_eq_ok.1 hset <;>
      cases hset
    · exact ⟨ha.types, ha.conversions, ha.generate⟩
    · exact ⟨ha.types, ha.conversions, ha.generate⟩
    · refine ⟨?_, ha.conversions, ha.generate⟩
      unfold map at hx
      split at hx
      · exact entries_all (fun t e he => typeExpr_distinct he) (by simp) hx
      · exact absurd hx mismatch_ne_ok
    · exact ⟨ha.types, list_all (fun t c hc => conversionSpec_distinct hc) hx, ha.generate⟩
    · exact ⟨ha.types, ha.conversions, list_all (fun t g hg => generateSpec_distinct hg) hx⟩
  · exact ⟨by simp [Document.empty], by simp [Document.empty], by simp [Document.empty]⟩

theorem document_names {src : Source} {t : Tree} {doc : Document}
    (h : document src t = .ok doc) : (Fields.names doc.types).Nodup := by
  refine Struct.decode_keeps (P := fun doc => (Fields.names doc.types).Nodup) ?_ ?_ h
  · intro f hf a t a' ha hset
    simp only [List.mem_cons, List.not_mem_nil, or_false] at hf
    rcases hf with rfl | rfl | rfl | rfl | rfl <;> obtain ⟨x, hx, hset⟩ := bind_eq_ok.1 hset <;>
      cases hset
    · exact ha
    · exact ha
    · exact map_names hx
    · exact ha
    · exact ha
  · simp [Document.empty, Fields.names]

end Decode

namespace Document

theorem ofText_distinct {s : String} {doc : Document} (h : ofText s = .ok doc) : doc.Distinct :=
  Decode.document_distinct (mapError_eq_ok.1 h)

theorem ofJson_distinct {j : Json} {doc : Document} (h : ofJson j = .ok doc) : doc.Distinct :=
  Decode.document_distinct (mapError_eq_ok.1 h)

theorem ofText_names {s : String} {doc : Document} (h : ofText s = .ok doc) :
    (Fields.names doc.types).Nodup :=
  Decode.document_names (mapError_eq_ok.1 h)

theorem ofJson_names {j : Json} {doc : Document} (h : ofJson j = .ok doc) :
    (Fields.names doc.types).Nodup :=
  Decode.document_names (mapError_eq_ok.1 h)

end Document

end Conform
