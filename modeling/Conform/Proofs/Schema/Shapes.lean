import Conform.Proofs.Model.Alternatives
import Conform.Proofs.Schema.Lowering

/-! Properties of the shapes in a table. Interning adds the shapes of type expressions and no
others, so that what holds of the shapes of all expressions that were interned holds of the table. -/

namespace Conform.Table

/-- Whether expressions `P` have shapes `Q`, and have parts that are `P` as well. -/
structure Gives (P : TypeExpr → Prop) (Q : Shape → Prop) : Prop where
  pending : Q .pending
  keyword : ∀ k, Q (.keyword k)
  literal : ∀ {l}, P (.literal l) → Q (.literal l)
  bigint : ∀ i, Q (.literal (.bigint i))
  array : ∀ d, Q (.array d)
  element : ∀ {e}, P (.array e) → P e
  union : ∀ ds, Q (.union ds)
  members : ∀ {es}, P (.union es) → ∀ e ∈ es, P e
  record : ∀ {fs} {ds : List (String × TypeId)}, P (.record fs) →
    Fields.names ds = Fields.names fs → Q (.record ds)
  fields : ∀ {fs}, P (.record fs) → ∀ f ∈ fs, P f.2

/-- Whether all shapes in a table are `Q`. -/
def All (Q : Shape → Prop) (t : Table) : Prop := ∀ d, Q (t.shape d)

theorem shape_alloc {t : Table} {entry : Entry} {d : TypeId} :
    (t.alloc entry).2.shape d = if d = t.entries.size then entry.shape else t.shape d := by
  simp only [alloc, shape, Array.getElem?_push]
  split_ifs <;> rfl

theorem shape_setShape (t : Table) (id d : TypeId) (s : Shape) :
    (t.setShape id s).shape d = s ∨ (t.setShape id s).shape d = t.shape d := by
  simp only [Table.setShape, Table.shape, Array.getElem?_modify]
  by_cases hid : id = d
  · subst hid
    cases t.entries[id]? <;> simp
  · simp [hid]

variable {P : TypeExpr → Prop} {Q : Shape → Prop} {t t' : Table} {s : Shape} {e : TypeExpr}
  {d : TypeId} {types rest : Declarations}

namespace All

theorem alloc {entry : Entry} (ht : t.All Q) (hs : Q entry.shape) : (t.alloc entry).2.All Q := by
  intro d
  rw [shape_alloc]
  split_ifs
  · exact hs
  · exact ht d

theorem inline (ht : t.All Q) (hs : Q s) : (t.inline s).2.All Q := by
  unfold Table.inline
  split
  · exact ht
  · exact ht.alloc hs

theorem setShape (ht : t.All Q) (hs : Q s) : (t.setShape d s).All Q := by
  intro x
  rcases shape_setShape t d x s with h | h <;> rw [h]
  · exact hs
  · exact ht x

theorem fillSlot {name : String} (ht : t.All Q) (hs : Q s) : (t.fillSlot name s).All Q := by
  unfold Table.fillSlot
  cases t.lookup name with
  | none => exact ht
  | some d => exact ht.setShape hs

end All

/-! ### Interning -/

/-- Whether the shape that an expression comes to, if it may need an entry, is `Q`. -/
def Lowered.All (Q : Shape → Prop) : Lowered → Prop
  | .known _ => True
  | .fresh s => Q s

theorem settle_all {r : Result Lowered} (h : settle r = (.ok d, t))
    (hr : ∀ l u, r = (.ok l, u) → u.All Q ∧ l.All Q) : t.All Q := by
  rcases settle_eq_ok h with hr' | ⟨s, u, hr', hi⟩
  · exact (hr _ _ hr').1
  · obtain ⟨hu, hs⟩ := hr _ _ hr'
    rw [← show (u.inline s).2 = t by rw [hi]]
    exact hu.inline hs

namespace Gives

mutual

theorem lower {t t' : Table} {e : TypeExpr} {l : Lowered} (h : Gives P Q) (ht : t.All Q)
    (he : P e) (hl : t.lower e = (.ok l, t')) : t'.All Q ∧ l.All Q := by
  cases e with
  | name n =>
    rw [Table.lower] at hl
    split at hl <;> cases hl
    · exact ⟨ht, trivial⟩
    · exact ⟨ht, h.keyword _⟩
  | literal value =>
    rw [Table.lower] at hl
    cases hl
    exact ⟨ht, h.literal he⟩
  | bigint text =>
    rw [Table.lower] at hl
    split at hl <;> cases hl
    exact ⟨ht, h.bigint _⟩
  | array element =>
    rw [Table.lower] at hl
    obtain ⟨id, hs, rfl⟩ := shaped_eq_ok hl
    exact ⟨settle_all hs fun l u hl => lower (e := element) h ht (h.element he) hl, h.array id⟩
  | union members =>
    rw [Table.lower] at hl
    obtain ⟨ids, hs, rfl⟩ := shaped_eq_ok hl
    exact ⟨internAll h ht (h.members he) hs, h.union ids⟩
  | record fields =>
    rw [Table.lower] at hl
    obtain ⟨ids, hs, rfl⟩ := shaped_eq_ok hl
    obtain ⟨ht', hn⟩ := internFields h ht (h.fields he) hs
    exact ⟨ht', h.record he hn⟩

theorem internAll {t t' : Table} {es : List TypeExpr} {ids : List TypeId} (h : Gives P Q)
    (ht : t.All Q) (he : ∀ e ∈ es, P e) (hi : t.internAll es = (.ok ids, t')) : t'.All Q := by
  cases es with
  | nil =>
    rw [Table.internAll] at hi
    cases hi
    exact ht
  | cons e es =>
    obtain ⟨d, u, ds, hs, hes, -⟩ := internAll_cons_eq_ok.1 hi
    obtain ⟨hhead, htail⟩ := List.forall_mem_cons.1 he
    exact internAll h (settle_all hs fun l u hl => lower h ht hhead hl) htail hes

theorem internFields {t t' : Table} {fs : List (String × TypeExpr)}
    {ids : List (String × TypeId)} (h : Gives P Q) (ht : t.All Q) (he : ∀ f ∈ fs, P f.2)
    (hi : t.internFields fs = (.ok ids, t')) :
    t'.All Q ∧ Fields.names ids = Fields.names fs := by
  cases fs with
  | nil =>
    rw [Table.internFields] at hi
    cases hi
    exact ⟨ht, rfl⟩
  | cons f fs =>
    obtain ⟨name, e⟩ := f
    obtain ⟨d, u, ds, hs, hes, rfl⟩ := internFields_cons_eq_ok.1 hi
    obtain ⟨hhead, htail⟩ := List.forall_mem_cons.1 he
    obtain ⟨ht', hn⟩ :=
      internFields h (settle_all hs fun l u hl => lower h ht hhead hl) htail hes
    exact ⟨ht', congrArg (name :: ·) hn⟩

end

variable (h : Gives P Q)

include h

theorem intern (ht : t.All Q) (he : P e) (hi : t.intern e = (.ok d, t')) : t'.All Q :=
  settle_all hi fun _ _ hl => h.lower ht he hl

/-! ### Declarations -/

theorem body (ht : t.All Q) (he : P e) (hb : t.body e = (.ok s, t')) : t'.All Q ∧ Q s := by
  rcases body_eq_ok hb with ⟨k, -, rfl, rfl⟩ | ⟨-, hl⟩
  · exact ⟨ht, h.keyword k⟩
  · exact h.lower ht he hl

theorem fill (ht : t.All Q) (he : ∀ f ∈ types, P f.2) (hf : Table.fill types t = .ok t') :
    t'.All Q := by
  induction types generalizing t with
  | nil =>
    cases hf
    exact ht
  | cons f rest ih =>
    obtain ⟨name, e⟩ := f
    obtain ⟨hhead, htail⟩ := List.forall_mem_cons.1 he
    rcases fill_cons_eq_ok.1 hf with ⟨-, hf⟩ | ⟨-, s, u, hb, hf⟩
    · exact ih ht htail hf
    · obtain ⟨hu, hs⟩ := h.body ht hhead hb
      exact ih (hu.fillSlot hs) htail hf

theorem slots (types : Declarations) : (Table.slots types).All Q := by
  suffices hall : ∀ t : Table, t.All Q → (types.foldl slot t).All Q from
    hall empty fun d => h.pending
  induction types with
  | nil => exact fun t ht => ht
  | cons f rest ih =>
    intro t ht
    rw [List.foldl_cons]
    apply ih
    unfold slot
    split_ifs
    · exact ht
    · exact ht.alloc h.pending

end Gives

theorem aliases_shape (h : aliases types rest t = .ok t') (d : TypeId) :
    t'.shape d = t.shape d := by
  induction rest generalizing t with
  | nil =>
    cases h
    rfl
  | cons a rest ih =>
    obtain ⟨name, body⟩ := a
    rw [aliases] at h
    split_ifs at h
    · split at h
      · cases h
      · rename_i id _
        exact ih (t := t.bind name id) h
    · exact ih h

theorem Gives.ofDeclarations (h : Gives P Q) (he : ∀ f ∈ types, P f.2)
    (ht : Table.ofDeclarations types = .ok t) : t.All Q := by
  obtain ⟨u, ha, hf⟩ := bind_eq_ok.1 ht
  refine h.fill (fun d => ?_) he hf
  rw [aliases_shape ha]
  exact h.slots types d

end Conform.Table
