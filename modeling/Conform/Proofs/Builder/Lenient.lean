import Conform.Proofs.Builder.Resolving

/-! Types that cannot be resolved by themselves, and an oracle that takes them for `any`. A builder
with nodes that were left by failed calls is valid for that oracle, while the nodes of the other
failed types wait for their parts. -/

namespace Conform

variable {D : Type} [DecidableEq D] {o o' : Oracle D} {hooks : List (Hook D)} {d : D}

namespace Oracle

/-- An oracle that says `any` of the types that another one refuses. -/
def lenient (o : Oracle D) : Oracle D :=
  { o with is := fun d t => if o.refuses d then t == .any else o.is d t }

omit [DecidableEq D] in
theorem trait?_lenient :
    o.lenient.trait? d = if o.refuses d then some .any else o.trait? d := by
  unfold trait? lenient
  dsimp only
  split_ifs <;> rfl

end Oracle

open Oracle

theorem isUnion_lenient : IsUnion o.lenient hooks d ↔ IsUnion o hooks d := by
  unfold IsUnion
  rw [trait?_lenient]
  split_ifs with hr
  · refine and_congr_right fun _ => iff_of_false (by simp) fun hu => ?_
    rw [refuses_eq_false hu rfl] at hr
    cases hr
  · rfl

theorem Leaf.of_isUnion_iff {l : D} (hu : ∀ d, IsUnion o hooks d ↔ IsUnion o' hooks d)
    (hm : o.unionMembers = o'.unionMembers) (h : Leaf o hooks d l) : Leaf o' hooks d l := by
  induction h with
  | self hn => exact .self fun h => hn ((hu _).2 h)
  | member hd hmem _ ih => exact .member ((hu _).1 hd) (hm ▸ hmem) ih

theorem leaf_lenient {l : D} : Leaf o.lenient hooks d l ↔ Leaf o hooks d l :=
  ⟨.of_isUnion_iff (fun _ => isUnion_lenient) rfl,
    .of_isUnion_iff (fun _ => isUnion_lenient.symm) rfl⟩

theorem Suits.refuses_eq_false {k : NodeKind} (h : Suits o hooks d k) (hh : hook? hooks d = none) :
    o.refuses d = false := by
  cases h with
  | conversion hc => cases hh.symm.trans hc
  | @simple t _ _ ht hk =>
    refine Oracle.refuses_eq_false ht ?_
    cases t <;> first | rfl | cases hk
  | literal _ ht _ hv => simp [refuses, ht, hv]
  | array _ ht | record _ ht => exact Oracle.refuses_eq_false ht rfl
  | union hu => exact Oracle.refuses_eq_false hu.2 rfl

theorem suits_lenient {k : NodeKind} (hr : hook? hooks d = none → o.refuses d = false) :
    Suits o.lenient hooks d k ↔ Suits o hooks d k := by
  have htrait : hook? hooks d = none → o.lenient.trait? d = o.trait? d := fun hh => by
    rw [trait?_lenient, hr hh]
    rfl
  constructor <;> intro h
  · cases h with
    | conversion hc => exact .conversion hc
    | simple hh ht hk => exact .simple hh (htrait hh ▸ ht) hk
    | literal hh ht hl hv => exact .literal hh (htrait hh ▸ ht) hl hv
    | array hh ht => exact .array hh (htrait hh ▸ ht)
    | union hu => exact .union (isUnion_lenient.1 hu)
    | record hh ht => exact .record hh (htrait hh ▸ ht)
  · cases h with
    | conversion hc => exact .conversion hc
    | simple hh ht hk => exact .simple hh ((htrait hh).trans ht) hk
    | literal hh ht hl hv => exact .literal hh ((htrait hh).trans ht) hl hv
    | array hh ht => exact .array hh ((htrait hh).trans ht)
    | union hu => exact .union (isUnion_lenient.2 hu)
    | record hh ht => exact .record hh ((htrait hh).trans ht)

namespace Builder

variable {b b' : Builder D} {id : NodeId} {name : String}
  {resolve : Builder D → D → Result D NodeId}

theorem gathered_lenient {ms : List D} {folded : List NodeId} :
    Gathered o.lenient hooks b ms folded ↔ Gathered o hooks b ms folded := by
  have hnode : ∀ x, LeafNode o.lenient hooks b ms x ↔ LeafNode o hooks b ms x := fun x => by
    simp only [LeafNode, leaf_lenient]
  constructor
  · exact fun h => ⟨fun m hm l hl => h.known m hm l (leaf_lenient.2 hl), h.gathers.congr hnode⟩
  · exact fun h => ⟨fun m hm l hl => h.known m hm l (leaf_lenient.1 hl),
      h.gathers.congr fun x => (hnode x).symm⟩

theorem finished_lenient {k : NodeKind} :
    Finished o.lenient hooks b d k ↔ Finished o hooks b d k := by
  cases k with
  | union members => exact gathered_lenient
  | _ => exact Iff.rfl

theorem Succeeds.lenient (h : Succeeds o hooks resolve b d id b') :
    Succeeds o.lenient hooks resolve b d id b' := by
  have htrait {t : Trait} (ht : o.trait? d = some t) (hl : t.isLiteral = false) :
      o.lenient.trait? d = some t := by
    rw [trait?_lenient, refuses_eq_false ht hl]
    exact ht
  cases h with
  | known hl => exact .known hl
  | leaf hl hs hk => exact .leaf hl ((suits_lenient hs.refuses_eq_false).2 hs) hk
  | array hl hh ht he hx => exact .array hl hh (htrait ht rfl) he hx
  | record hl hh ht hf => exact .record hl hh (htrait ht rfl) hf
  | union hl hu hf => exact .union hl (isUnion_lenient.2 hu) hf

/-- A call that succeeds keeps a builder valid, whatever failed before. -/
theorem resolveWithin_lenient (depth : Nat) :
    Resolves o.lenient hooks (resolveWithin o hooks depth) := by
  induction depth with
  | zero =>
    intro b b' waiting d id h hf
    cases hf
  | succ depth ih => exact fun _ _ _ _ _ h hf => (resolveWithin_succeeds hf).lenient.advances ih h

end Builder

end Conform
