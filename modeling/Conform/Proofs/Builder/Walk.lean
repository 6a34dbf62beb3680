import Mathlib.Logic.Relation
import Conform.Proofs.Builder.Valid

/-! The order in which types are looked at when one is resolved, apart from the nodes that are
made on the way. Each type is entered once, its children in order, and a union whose members
are being folded must not be a member again. -/

namespace Conform

variable {D : Type} [DecidableEq D]

section

variable (o : Oracle D) (hooks : List (Hook D))

/-- The types that are resolved for a type. -/
def children (d : D) : List D :=
  match hook? hooks d, o.trait? d with
  | none, some .union => o.unionMembers d
  | none, some .record => (o.recordFields d).map (·.2)
  | none, some .array => (o.arrayElement d).toList
  | _, _ => []

/-- Whether resolving a type leads to another one. -/
def Reaches : D → D → Prop := Relation.ReflTransGen fun d c => c ∈ children o hooks d

instance (d : D) : Decidable (IsUnion o hooks d) :=
  inferInstanceAs (Decidable (hook? hooks d = none ∧ o.trait? d = some .union))

/-- The unions that are being folded while the children of a type are resolved. -/
def inner (around : List D) (d : D) : List D :=
  if IsUnion o hooks d then d :: around else around

/-- Whether types can be resolved in order, one after the other. `around` holds the unions that
are being folded, and `seen` the types that have nodes, before and after. -/
inductive Walks : List D → List D → List D → List D → Prop
  | nil {around seen : List D} : Walks around seen [] seen
  | old {around seen seen' ds : List D} {d : D} : d ∈ seen → Walks around seen ds seen' →
      Walks around seen (d :: ds) seen'
  | new {around seen seen₁ seen' ds : List D} {d : D} : d ∉ seen →
      (IsUnion o hooks d → ∀ c ∈ children o hooks d, IsUnion o hooks c →
        c ∉ inner o hooks around d) →
      Walks (inner o hooks around d) (d :: seen) (children o hooks d) seen₁ →
      Walks around seen₁ ds seen' → Walks around seen (d :: ds) seen'

end

variable {o : Oracle D} {hooks : List (Hook D)} {around seen seen' seen₁ ds : List D} {d : D}

theorem children_of_union (h : IsUnion o hooks d) : children o hooks d = o.unionMembers d := by
  unfold children
  rw [h.1, h.2]

theorem children_of_record (hh : hook? hooks d = none) (ht : o.trait? d = some .record) :
    children o hooks d = (o.recordFields d).map (·.2) := by
  unfold children
  rw [hh, ht]

theorem children_of_array {element : D} (hh : hook? hooks d = none) (ht : o.trait? d = some .array)
    (he : o.arrayElement d = some element) : children o hooks d = [element] := by
  unfold children
  rw [hh, ht, he]
  rfl

theorem children_of_leaf {k : NodeKind} (h : Suits o hooks d k) (hk : k.isLeaf) :
    children o hooks d = [] := by
  unfold children
  cases h with
  | conversion hh => rw [hh]
  | @simple t k hh ht hs =>
    rw [hh, ht]
    cases t <;> first | rfl | cases hs
  | @literal t value hh ht hl hv =>
    rw [hh, ht]
    cases t <;> first | rfl | cases hl
  | array | union | record => cases hk

theorem mem_children {c : D} (h : c ∈ children o hooks d) :
    (IsUnion o hooks d ∧ c ∈ o.unionMembers d) ∨
      (hook? hooks d = none ∧ o.trait? d = some .record ∧ ∃ f ∈ o.recordFields d, f.2 = c) ∨
      (hook? hooks d = none ∧ o.trait? d = some .array ∧ o.arrayElement d = some c) := by
  unfold children at h
  split at h
  · rename_i hh ht
    exact Or.inl ⟨⟨hh, ht⟩, h⟩
  · rename_i hh ht
    exact Or.inr (Or.inl ⟨hh, ht, List.mem_map.1 h⟩)
  · rename_i hh ht
    exact Or.inr (Or.inr ⟨hh, ht, by simpa using h⟩)
  · cases h

namespace Walks

theorem head (h : Walks o hooks around seen (d :: ds) seen') :
    ∃ seen₁, Walks o hooks around seen [d] seen₁ ∧ Walks o hooks around seen₁ ds seen' := by
  cases h with
  | old hd hds => exact ⟨seen, .old hd .nil, hds⟩
  | new hd hm hc hds => exact ⟨_, .new hd hm hc .nil, hds⟩

theorem cons (h : Walks o hooks around seen [d] seen₁)
    (hds : Walks o hooks around seen₁ ds seen') : Walks o hooks around seen (d :: ds) seen' := by
  cases h with
  | old hd hn =>
    cases hn
    exact .old hd hds
  | new hd hm hc hn =>
    cases hn
    exact .new hd hm hc hds

theorem unique (h : Walks o hooks around seen ds seen') (h' : Walks o hooks around seen ds seen₁) :
    seen' = seen₁ := by
  induction h generalizing seen₁ with
  | nil =>
    cases h'
    rfl
  | old hd _ ih =>
    cases h' with
    | old _ h' => exact ih h'
    | new hn => exact absurd hd hn
  | new hn _ _ _ ihc ih =>
    cases h' with
    | old hd => exact absurd hd hn
    | new _ _ hc h' =>
      obtain rfl := ihc hc
      exact ih h'

theorem mono (h : Walks o hooks around seen ds seen') : seen ⊆ seen' := by
  induction h with
  | nil => exact fun _ h => h
  | old _ _ ih => exact ih
  | new _ _ _ _ ihc ih => exact fun x hx => ih (ihc (List.mem_cons_of_mem _ hx))

theorem seen_of_mem (h : Walks o hooks around seen ds seen') : ds ⊆ seen' := by
  induction h with
  | nil => simp
  | old hd hds ih => exact List.cons_subset.2 ⟨hds.mono hd, ih⟩
  | new _ _ hc hds _ ih =>
    exact List.cons_subset.2 ⟨hds.mono (hc.mono List.mem_cons_self), ih⟩

theorem eq_of_subset (h : Walks o hooks around seen ds seen') (hds : ds ⊆ seen) : seen' = seen := by
  induction h with
  | nil => rfl
  | old _ _ ih => exact ih (List.cons_subset.1 hds).2
  | new hn => exact absurd (List.cons_subset.1 hds).1 hn

theorem closed (h : Walks o hooks around seen ds seen') :
    ∀ x ∈ seen', x ∈ seen ∨ children o hooks x ⊆ seen' := by
  induction h with
  | nil => exact fun _ hx => Or.inl hx
  | old _ _ ih => exact ih
  | new _ _ hc hds ihc ih =>
    intro x hx
    rcases ih x hx with hx | hx
    · rcases ihc x hx with hx | hx
      · rcases List.mem_cons.1 hx with rfl | hx
        · exact Or.inr (List.Subset.trans hc.seen_of_mem hds.mono)
        · exact Or.inl hx
      · exact Or.inr (List.Subset.trans hx hds.mono)
    · exact Or.inr hx

theorem reached (h : Walks o hooks around seen ds seen') :
    ∀ x ∈ seen', x ∈ seen ∨ ∃ d ∈ ds, Reaches o hooks d x := by
  induction h with
  | nil => exact fun _ hx => Or.inl hx
  | old _ _ ih =>
    intro x hx
    exact (ih x hx).imp_right fun ⟨d, hd, hr⟩ => ⟨d, List.mem_cons_of_mem _ hd, hr⟩
  | @new around seen seen₁ seen' ds d _ _ _ _ ihc ih =>
    intro x hx
    rcases ih x hx with hx | ⟨e, he, hr⟩
    · rcases ihc x hx with hx | ⟨c, hc, hr⟩
      · rcases List.mem_cons.1 hx with rfl | hx
        · exact Or.inr ⟨x, List.mem_cons_self, .refl⟩
        · exact Or.inl hx
      · exact Or.inr ⟨d, List.mem_cons_self, .head hc hr⟩
    · exact Or.inr ⟨e, List.mem_cons_of_mem _ he, hr⟩

end Walks

/-- What is reached from types is seen once they are resolved. -/
theorem Walks.seen_of_reaches (h : Walks o hooks around [] ds seen) (hd : d ∈ ds) {x : D}
    (hx : Reaches o hooks d x) : x ∈ seen := by
  induction hx with
  | refl => exact h.seen_of_mem hd
  | tail _ hc ih => exact (h.closed _ ih).resolve_left (by simp) hc

end Conform
