import Conform.Proofs.Builder.Compile

/-! Two oracles that describe the same types by different descriptors. A walk with one is a walk
with the other, also where the other one has seen more before, as long as that is complete. -/

namespace Conform

variable {D D' : Type} [DecidableEq D] [DecidableEq D'] {o : Oracle D} {o' : Oracle D'}
  {hooks : List (Hook D)} {hooks' : List (Hook D')} {R : D → D' → Prop}

/-- Whether related descriptors are the same types, and each is related to one at most. -/
structure Matches (o : Oracle D) (hooks : List (Hook D)) (o' : Oracle D') (hooks' : List (Hook D'))
    (R : D → D' → Prop) : Prop where
  left : ∀ {x y y'}, R x y → R x y' → y = y'
  right : ∀ {x x' y}, R x y → R x' y → x = x'
  hook : ∀ {x y}, R x y → (hook? hooks x).isSome = (hook? hooks' y).isSome
  trait : ∀ {x y}, R x y → o.trait? x = o'.trait? y
  literal : ∀ {x y}, R x y → (o.literalValue x).isSome = (o'.literalValue y).isSome
  members : ∀ {x y}, R x y → List.Forall₂ R (o.unionMembers x) (o'.unionMembers y)
  fields : ∀ {x y}, R x y →
    List.Forall₂ (fun f g => R f.2 g.2) (o.recordFields x) (o'.recordFields y)
  element : ∀ {x y}, R x y → Option.Rel R (o.arrayElement x) (o'.arrayElement y)

namespace Matches

variable (h : Matches o hooks o' hooks' R) {x c l : D} {y : D'}

include h

theorem symm : Matches o' hooks' o hooks fun y x => R x y where
  left := h.right
  right := h.left
  hook hxy := (h.hook hxy).symm
  trait hxy := (h.trait hxy).symm
  literal hxy := (h.literal hxy).symm
  members hxy := (h.members hxy).flip
  fields hxy := (h.fields hxy).flip
  element hxy := by
    have hel := h.element hxy
    revert hel
    generalize o.arrayElement _ = a
    generalize o'.arrayElement _ = b
    rintro (hr | _)
    · exact .some hr
    · exact .none

theorem hook_none (hxy : R x y) : hook? hooks x = none ↔ hook? hooks' y = none := by
  rw [← Option.isNone_iff_eq_none, ← Option.isNone_iff_eq_none, ← Option.not_isSome,
    ← Option.not_isSome, h.hook hxy]

theorem isUnion (hxy : R x y) : IsUnion o hooks x ↔ IsUnion o' hooks' y := by
  rw [IsUnion, IsUnion, h.hook_none hxy, h.trait hxy]

theorem children (hxy : R x y) :
    List.Forall₂ R (children o hooks x) (Conform.children o' hooks' y) := by
  unfold Conform.children
  have hh := h.hook_none hxy
  rw [← h.trait hxy]
  cases hx : hook? hooks x with
  | some k =>
    obtain ⟨k', hk'⟩ : ∃ k', hook? hooks' y = some k' := by
      rw [← Option.isSome_iff_exists, ← h.hook hxy, hx]
      rfl
    rw [hk']
    exact .nil
  | none =>
    rw [hh.1 hx]
    cases o.trait? x with
    | none => exact .nil
    | some t =>
      cases t with
      | union => exact h.members hxy
      | record =>
        rw [List.forall₂_map_left_iff, List.forall₂_map_right_iff]
        exact h.fields hxy
      | array =>
        have hel := h.element hxy
        revert hel
        generalize o.arrayElement x = a
        generalize o'.arrayElement y = b
        rintro (hr | _)
        · exact .cons hr .nil
        · exact .nil
      | _ => exact .nil

theorem leaf (hxy : R x y) (hl : Leaf o hooks x l) : ∃ l', Leaf o' hooks' y l' ∧ R l l' := by
  induction hl generalizing y with
  | self hu => exact ⟨y, .self fun hy => hu ((h.isUnion hxy).2 hy), hxy⟩
  | member hu hm _ ih =>
    obtain ⟨m', hm', hr⟩ := exists_of_mem_left (h.members hxy) hm
    obtain ⟨l', hl', hll⟩ := ih hr
    exact ⟨l', .member ((h.isUnion hxy).1 hu) hm' hl', hll⟩

theorem reaches (hxy : R x y) (hc : Reaches o hooks x c) :
    ∃ c', Reaches o' hooks' y c' ∧ R c c' := by
  induction hc with
  | refl => exact ⟨y, .refl, hxy⟩
  | tail _ hc ih =>
    obtain ⟨d', hd', hr⟩ := ih
    obtain ⟨c', hc', hcc⟩ := exists_of_mem_left (h.children hr) hc
    exact ⟨c', hd'.tail hc', hcc⟩

theorem fine (hxy : R x y) (hf : Fine o hooks x) : Fine o' hooks' y := by
  refine ⟨fun hh => ?_, fun {t} hh ht hl => ?_, fun hh ht => ?_, fun {l l'} hl hl' hc hc' => ?_⟩
  · rw [← h.trait hxy]
    exact hf.trait ((h.hook_none hxy).2 hh)
  · rw [← h.literal hxy]
    exact hf.literal ((h.hook_none hxy).2 hh) ((h.trait hxy).trans ht) hl
  · have hel := hf.element ((h.hook_none hxy).2 hh) ((h.trait hxy).trans ht)
    have hr := h.element hxy
    revert hel hr
    generalize o.arrayElement x = a
    generalize o'.arrayElement y = b
    rintro hel (_ | _)
    · rfl
    · cases hel
  · obtain ⟨m, hm, hml⟩ := h.symm.leaf hxy hl
    obtain ⟨m', hm', hml'⟩ := h.symm.leaf hxy hl'
    have hmm := hf.single hm hm' (by rw [h.hook hml]; exact hc) (by rw [h.hook hml']; exact hc')
    subst hmm
    exact h.left hml hml'

theorem acc (hxy : R x y) (hx : Acc (Inside o hooks) x) : Acc (Inside o' hooks') y := by
  induction hx generalizing y with
  | intro x _ ih =>
    refine ⟨_, fun e' he => ?_⟩
    rcases he with ⟨hh, ht, he⟩ | ⟨hu, hl⟩
    · have hel := h.element hxy
      rw [he] at hel
      cases hoe : o.arrayElement x with
      | none =>
        rw [hoe] at hel
        cases hel
      | some e =>
        rw [hoe] at hel
        cases hel with
        | some hr =>
          exact ih e (Or.inl ⟨(h.hook_none hxy).2 hh, (h.trait hxy).trans ht, hoe⟩) hr
    · obtain ⟨l, hl', hr⟩ := h.symm.leaf hxy hl
      exact ih l (Or.inr ⟨(h.isUnion hxy).2 hu, hl'⟩) hr

theorem sane (hxy : R x y) (hx : Sane o hooks x) : Sane o' hooks' y :=
  ⟨h.fine hxy hx.fine, h.acc hxy hx.acc⟩

theorem mem_inner {around : List D} {around' : List D'} (hxy : R x y)
    (ha : ∀ ⦃x y⦄, R x y → y ∈ around' → x ∈ around) ⦃z : D⦄ ⦃w : D'⦄ (hzw : R z w)
    (hw : w ∈ inner o' hooks' around' y) : z ∈ inner o hooks around x := by
  unfold inner at hw ⊢
  by_cases hu : IsUnion o hooks x
  · rw [if_pos ((h.isUnion hxy).1 hu)] at hw
    rw [if_pos hu]
    rcases List.mem_cons.1 hw with rfl | hw
    · obtain rfl := h.right hzw hxy
      exact List.mem_cons_self
    · exact List.mem_cons_of_mem _ (ha hzw hw)
  · rw [if_neg fun hy => hu ((h.isUnion hxy).2 hy)] at hw
    rw [if_neg hu]
    exact ha hzw hw

end Matches

/-- Whether types seen with one oracle and those in `before` are those seen with another. -/
def Together (R : D → D' → Prop) (before : D' → Prop) (seen : List D) (seen' : List D') : Prop :=
  ∀ ⦃x y⦄, R x y → (x ∈ seen ∨ before y ↔ y ∈ seen')

theorem Together.cons (h : Matches o hooks o' hooks' R) {before : D' → Prop} {seen : List D}
    {seen' : List D'} {x : D} {y : D'} (hr : R x y) (hs : Together R before seen seen') :
    Together R before (x :: seen) (y :: seen') := by
  intro z w hzw
  rw [List.mem_cons, List.mem_cons, or_assoc, hs hzw]
  refine or_congr_left ⟨?_, ?_⟩
  · rintro rfl
    exact h.left hzw hr
  · rintro rfl
    exact h.right hzw hr

theorem Together.skip (h : Matches o hooks o' hooks' R) {before : D' → Prop} {seen : List D}
    {seen' : List D'} {x : D} {y : D'} (hr : R x y) (hy : before y)
    (hs : Together R before seen seen') : Together R before (x :: seen) seen' := by
  intro z w hzw
  rw [List.mem_cons, or_assoc, hs hzw]
  refine or_iff_right_of_imp ?_
  rintro rfl
  obtain rfl := h.left hzw hr
  exact (hs hr).1 (Or.inr hy)

/-- A walk with one oracle is one with another, where some types were seen before with all that
they lead to. -/
theorem Walks.follow (h : Matches o hooks o' hooks' R) {before : D' → Prop}
    (hb : ∀ y, before y → ∀ c ∈ children o' hooks' y, before c) {around seen seen₁ ds : List D}
    (hw : Walks o hooks around seen ds seen₁) {around' seen' ds' : List D'}
    (hds : List.Forall₂ R ds ds') (hs : Together R before seen seen')
    (ha : ∀ ⦃x y⦄, R x y → y ∈ around' → x ∈ around) :
    ∃ seen₁', Walks o' hooks' around' seen' ds' seen₁' ∧ Together R before seen₁ seen₁' := by
  induction hw generalizing around' seen' ds' with
  | nil =>
    cases hds
    exact ⟨seen', .nil, hs⟩
  | old hd _ ih =>
    cases hds with
    | cons hr hds =>
      obtain ⟨s, hw, hs'⟩ := ih hds hs ha
      exact ⟨s, .old ((hs hr).1 (Or.inl hd)) hw, hs'⟩
  | @new around seen seen₁ seen₂ ds d hd hm hc _ ihc ih =>
    cases hds with
    | @cons _ d' _ ds' hr hds =>
      have hchildren := h.children hr
      have hinner := h.mem_inner hr ha
      by_cases hd' : d' ∈ seen'
      · -- what it leads to was seen as well, so that the walk of it adds nothing
        have hbefore : before d' := ((hs hr).2 hd').resolve_left hd
        have hskip : Together R before (d :: seen) seen' := hs.skip h hr hbefore
        obtain ⟨s, hwc, hsc⟩ := ihc hchildren hskip hinner
        have hsub : children o' hooks' d' ⊆ seen' := by
          intro c hc'
          obtain ⟨x, hx, hxc⟩ := exists_of_mem_right hchildren hc'
          exact (hskip hxc).1 (Or.inr (hb d' hbefore c hc'))
        obtain rfl := hwc.eq_of_subset hsub
        obtain ⟨s, hw, hs'⟩ := ih hds hsc ha
        exact ⟨s, .old hd' hw, hs'⟩
      · obtain ⟨s, hwc, hsc⟩ := ihc hchildren (hs.cons h hr) hinner
        obtain ⟨s', hw, hs'⟩ := ih hds hsc ha
        refine ⟨s', .new hd' (fun hu c hc' hcu hmem => ?_) hwc hw, hs'⟩
        obtain ⟨x, hx, hxc⟩ := exists_of_mem_right hchildren hc'
        exact hm ((h.isUnion hr).2 hu) x hx ((h.isUnion hxc).2 hcu) (hinner hxc hmem)

theorem Matches.refl (o : Oracle D) (hooks : List (Hook D)) : Matches o hooks o hooks Eq where
  left h h' := h.symm.trans h'
  right h h' := h.trans h'.symm
  hook h := by rw [h]
  trait h := by rw [h]
  literal h := by rw [h]
  members h := by rw [h, List.forall₂_eq_eq_eq]
  fields h := by
    rw [h]
    exact List.forall₂_same.2 fun _ _ => rfl
  element h := by
    rw [h]
    cases o.arrayElement _ with
    | none => exact .none
    | some e => exact .some rfl

namespace Compilable

theorem of_matches (h : Matches o hooks o' hooks' R) {ds : List D} {ds' : List D'}
    (hds : List.Forall₂ R ds ds') (hc : Compilable o hooks ds) : Compilable o' hooks' ds' := by
  obtain ⟨seen, hw⟩ := hc.walks
  have hnone : Together R (fun _ => False) [] [] := fun x y _ => by simp
  obtain ⟨seen', hw', -⟩ := hw.follow h (fun _ hb => hb.elim) hds hnone fun _ _ _ hy =>
    absurd hy List.not_mem_nil
  refine ⟨⟨seen', hw'⟩, fun d' hd' c' hc' => ?_⟩
  obtain ⟨d, hd, hr⟩ := exists_of_mem_right hds hd'
  obtain ⟨c, hreach, hcc⟩ := h.symm.reaches hr hc'
  exact h.sane hcc (hc.sane d hd c hreach)

variable {d : D} {ds : List D}

theorem head (h : Compilable o hooks (d :: ds)) : Compilable o hooks [d] := by
  obtain ⟨seen, hw⟩ := h.walks
  obtain ⟨seen₁, hd, -⟩ := hw.head
  refine ⟨⟨seen₁, hd⟩, fun c hc => h.sane c ?_⟩
  rw [List.mem_singleton.1 hc]
  exact List.mem_cons_self

/-- Types that can be compiled by themselves can be compiled together, in any order. -/
theorem of_each (h : ∀ d ∈ ds, Compilable o hooks [d]) : Compilable o hooks ds := by
  refine ⟨?_, fun d hd => (h d hd).sane d (by simp)⟩
  suffices hall : ∀ seen, (∀ x ∈ seen, children o hooks x ⊆ seen) →
      ∃ seen', Walks o hooks [] seen ds seen' from hall [] (by simp)
  induction ds with
  | nil => exact fun seen _ => ⟨seen, .nil⟩
  | cons d ds ih =>
    intro seen hclosed
    obtain ⟨alone, hw⟩ := (h d (by simp)).walks
    -- the walk of the first type by itself, with what others have seen already
    have hbefore : Together Eq (· ∈ seen) [] seen := fun x y hxy => by simp [hxy]
    obtain ⟨seen₁, hd, -⟩ := hw.follow (.refl o hooks) (fun y hy c hc => hclosed y hy hc)
      (.cons rfl .nil) hbefore fun _ _ _ hy => absurd hy List.not_mem_nil
    obtain ⟨seen₂, hds⟩ := ih (fun c hc => h c (by simp [hc])) seen₁ fun x hx =>
      (hd.closed x hx).elim (fun hx => List.Subset.trans (hclosed x hx) hd.mono) id
    exact ⟨seen₂, hd.cons hds⟩

end Compilable

end Conform
