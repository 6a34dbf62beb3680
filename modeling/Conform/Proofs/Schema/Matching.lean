import Conform.Proofs.Builder.Matching
import Conform.Proofs.Schema.Embedding
import Conform.Proofs.Schema.Reading

/-! The oracle of a table tells of its entries the same as that of a table that has them under
other numbers. -/

namespace Conform.Table

variable {t t' : Table} {f : TypeId → TypeId} {d c : TypeId} {hooks hooks' : List (Hook TypeId)}

theorem unionMembers_subset : t.unionMembers d ⊆ (t.shape d).children := by
  unfold unionMembers
  cases t.shape d <;> simp [Shape.children]

theorem recordFields_subset : (t.recordFields d).map (·.2) ⊆ (t.shape d).children := by
  unfold recordFields
  cases t.shape d <;> simp [Shape.children]

theorem arrayElement_subset : (t.arrayElement d).toList ⊆ (t.shape d).children := by
  unfold arrayElement
  cases t.shape d <;> simp [Shape.children]

theorem children_oracle : children t.oracle hooks d ⊆ (t.shape d).children := by
  unfold Conform.children
  split
  · exact unionMembers_subset
  · exact recordFields_subset
  · exact arrayElement_subset
  · exact List.nil_subset _

/-- What is entered from an entry is an entry. -/
theorem Tidy.listed (h : t.Tidy) (hooks : List (Hook TypeId)) : t.oracle.Listed hooks := by
  intro d hd c hc
  have hd : d < t.entries.size := List.mem_range.1 hd
  have hc := children_oracle hc
  rw [shape_eq (Array.getElem?_eq_getElem hd)] at hc
  exact List.mem_range.2 (h.children (Array.getElem?_eq_getElem hd) c hc)

namespace Embeds

theorem shape (h : t.Embeds f t') (hd : d < t.entries.size) :
    (t'.shape (f d)).normal = ((t.shape d).rename f).normal := by
  obtain ⟨e', he', -, hs⟩ := h.entry (Array.getElem?_eq_getElem hd)
  rw [shape_eq he', hs, shape_eq (Array.getElem?_eq_getElem hd)]

theorem trait? (h : t.Embeds f t') (hd : d < t.entries.size) :
    t'.oracle.trait? (f d) = t.oracle.trait? d := by
  rw [trait?_oracle, trait?_oracle, ← Shape.trait?_normal, h.shape hd, Shape.trait?_normal,
    Shape.trait?_rename]

theorem unionMembers (h : t.Embeds f t') (hd : d < t.entries.size) :
    t'.unionMembers (f d) = (t.unionMembers d).map f := by
  have hs := h.shape hd
  unfold Table.unionMembers
  generalize t.shape d = s at hs
  generalize t'.shape (f d) = s' at hs
  cases s <;> cases s' <;> simp_all [Shape.rename, Shape.normal]

theorem recordFields (h : t.Embeds f t') (hd : d < t.entries.size) :
    t'.recordFields (f d) = (t.recordFields d).map fun c => (c.1, f c.2) := by
  have hs := h.shape hd
  unfold Table.recordFields
  generalize t.shape d = s at hs
  generalize t'.shape (f d) = s' at hs
  cases s <;> cases s' <;> simp_all [Shape.rename, Shape.normal]

theorem arrayElement (h : t.Embeds f t') (hd : d < t.entries.size) :
    t'.arrayElement (f d) = (t.arrayElement d).map f := by
  have hs := h.shape hd
  unfold Table.arrayElement
  generalize t.shape d = s at hs
  generalize t'.shape (f d) = s' at hs
  cases s <;> cases s' <;> simp_all [Shape.rename, Shape.normal]

theorem literalValue (h : t.Embeds f t') (hd : d < t.entries.size) :
    (t'.literalValue (f d)).isSome = (t.literalValue d).isSome := by
  have hs := h.shape hd
  unfold Table.literalValue
  generalize t.shape d = s at hs
  generalize t'.shape (f d) = s' at hs
  cases s <;> cases s' <;> simp_all [Shape.rename, Shape.normal]

/-- The entries of a table are the types of the other one that they have the numbers of. -/
theorem oracle (h : t.Embeds f t') (ht : t.Tidy)
    (hlt : ∀ d ∈ hooks.map (·.result), d < t.entries.size)
    (hh : hooks'.map (·.result) = (hooks.map (·.result)).map f) :
    Matches t.oracle hooks t'.oracle hooks' fun x y => x < t.entries.size ∧ y = f x := by
  have hchild : ∀ {x}, x < t.entries.size → ∀ c ∈ (t.shape x).children, c < t.entries.size := by
    intro x hx c hc
    rw [shape_eq (Array.getElem?_eq_getElem hx)] at hc
    exact ht.children (Array.getElem?_eq_getElem hx) c hc
  refine ⟨?_, ?_, ?_, ?_, ?_, ?_, ?_, ?_⟩
  · rintro x y y' ⟨-, rfl⟩ ⟨-, rfl⟩
    rfl
  · rintro x x' y ⟨hx, rfl⟩ ⟨hx', he⟩
    exact h.injective hx hx' he
  · rintro x y ⟨hx, rfl⟩
    rw [Bool.eq_iff_iff, hook?_isSome, hook?_isSome, hh]
    refine ⟨List.mem_map_of_mem, fun hmem => ?_⟩
    obtain ⟨d, hd, he⟩ := List.mem_map.1 hmem
    exact h.injective (hlt d hd) hx he ▸ hd
  · rintro x y ⟨hx, rfl⟩
    exact (h.trait? hx).symm
  · rintro x y ⟨hx, rfl⟩
    exact (h.literalValue hx).symm
  · rintro x y ⟨hx, rfl⟩
    change List.Forall₂ _ (t.unionMembers x) (t'.unionMembers (f x))
    rw [h.unionMembers hx, List.forall₂_map_right_iff, List.forall₂_same]
    exact fun c hc => ⟨hchild hx c (unionMembers_subset hc), rfl⟩
  · rintro x y ⟨hx, rfl⟩
    change List.Forall₂ _ (t.recordFields x) (t'.recordFields (f x))
    rw [h.recordFields hx, List.forall₂_map_right_iff, List.forall₂_same]
    exact fun c hc => ⟨hchild hx c.2 (recordFields_subset (List.mem_map_of_mem hc)), rfl⟩
  · rintro x y ⟨hx, rfl⟩
    change Option.Rel _ (t.arrayElement x) (t'.arrayElement (f x))
    rw [h.arrayElement hx]
    cases he : t.arrayElement x with
    | none => exact .none
    | some c => exact .some ⟨hchild hx c (arrayElement_subset (by simp [he])), rfl⟩

end Embeds

end Conform.Table
