import Conform.Proofs.Builder.Meaning
import Conform.Proofs.Builder.Walk
import Conform.Proofs.Model.Endless

/-! A program can be written for a model exactly if no type that requests lead to is inside itself
without a record between. -/

namespace Conform

variable {D : Type} [DecidableEq D] {o : Oracle D} {hooks : List (Hook D)}

/-- Whether a type is written out where another one stands: the element of an array, or what is
left of a union. -/
def Inside (o : Oracle D) (hooks : List (Hook D)) (e d : D) : Prop :=
  (hook? hooks d = none ∧ o.trait? d = some .array ∧ o.arrayElement d = some e) ∨
    (IsUnion o hooks d ∧ Leaf o hooks d e)

theorem Leaf.acc {d l : D} (h : Leaf o hooks d l) (hd : Acc (Inside o hooks) d) :
    Acc (Inside o hooks) l := by
  by_cases hu : IsUnion o hooks d
  · exact hd.inv (Or.inr ⟨hu, h⟩)
  · rwa [(leaf_self_iff hu).1 h]

theorem acc_of_leaves {c d : D} (hd : Acc (Inside o hooks) d)
    (h : ∀ l, Leaf o hooks c l → Leaf o hooks d l) : Acc (Inside o hooks) c := by
  by_cases hu : IsUnion o hooks c
  · refine ⟨_, fun e he => ?_⟩
    rcases he with ⟨hn, ht, -⟩ | ⟨-, hl⟩
    · rw [hu.2] at ht
      cases ht
    · exact (h e hl).acc hd
  · exact (h c (.self hu)).acc hd

namespace Builder

variable {b : Builder D} {d : D} {id : NodeId}

theorem Valid.whole (h : b.Valid o hooks []) : b.finish.Whole := by
  refine ⟨fun id hk => ?_, fun id n n' hn hn' => ?_⟩
  · have hk : b.kind id = .array none := hk
    obtain ⟨d, hd⟩ := h.exists_type (by rw [hk]; simp) (by rw [hk]; simp)
    obtain ⟨-, -, x, -, hx, -⟩ := h.of_array hd List.not_mem_nil hk
    cases hx
  · cases hm : b.finish.kind id with
    | union members =>
      rw [Model.parts, hm] at hn hn'
      have hm : b.kind id = .union members := hm
      obtain ⟨d, hd⟩ := h.exists_type (by rw [hm]; simp) (by rw [hm]; simp)
      obtain ⟨-, hg⟩ := h.of_union hd List.not_mem_nil hm
      obtain ⟨y, hy, hyn⟩ := List.mem_map.1 hn
      obtain ⟨z, hz, hzn⟩ := List.mem_map.1 hn'
      have hyn : b.kind y = .conversion n := hyn
      have hzn : b.kind z = .conversion n' := hzn
      obtain rfl := hg.gathers.single y hy z hz (by simp [isConversion, hyn])
        (by simp [isConversion, hzn])
      rw [hyn] at hzn
      cases hzn
      rfl
    | _ => simp_all [Model.parts]

theorem Valid.acc_within (h : b.Valid o hooks []) (hacc : Acc (Inside o hooks) d)
    (hd : (d, id) ∈ b.known) : Acc b.finish.Within id := by
  induction hacc generalizing id with
  | intro d _ ih =>
    refine ⟨_, fun x hx => ?_⟩
    rcases hx with hx | ⟨members, hk, hx⟩
    · have hx : b.kind id = .array (some x) := hx
      obtain ⟨hh, ht, x', e, hx', he, hex⟩ := h.of_array hd List.not_mem_nil hx
      cases hx'
      exact ih e (Or.inl ⟨hh, ht, he⟩) hex
    · have hk : b.kind id = .union members := hk
      obtain ⟨hu, hg⟩ := h.of_union hd List.not_mem_nil hk
      rcases hg.gathers.sound x hx with ⟨m, hm, l, hl, hlx⟩ | ⟨hboth, -⟩
      · exact ih l (Or.inr ⟨hu, .member hu hm hl⟩) hlx
      · have hbool : b.finish.kind x = .boolean := h.both x hboth
        exact Model.acc_of_leaf (by simp [hbool]) (by simp [hbool])

theorem Valid.acc_inside (h : b.Valid o hooks []) (hacc : Acc b.finish.Within id)
    (hd : (d, id) ∈ b.known) : Acc (Inside o hooks) d := by
  induction hacc generalizing d with
  | intro id _ ih =>
    refine ⟨_, fun e he => ?_⟩
    rcases he with ⟨hh, ht, he⟩ | ⟨hu, hl⟩
    · obtain ⟨x, e', hk, he', hex⟩ := h.exists_array hd List.not_mem_nil hh ht
      obtain rfl := Option.some.inj (he.symm.trans he')
      exact ih x (Or.inl hk) hex
    · obtain ⟨members, hk, hg⟩ := h.exists_union hd List.not_mem_nil hu
      obtain ⟨m, hm, hml⟩ := (leaf_iff hu).1 hl
      obtain ⟨y, hy⟩ := hg.known m hm e hml
      rcases hg.gathers.complete y ⟨m, hm, e, hml, hy⟩ with hmem | ⟨hpart, -⟩
      · exact ih y (Or.inr ⟨members, hk, hmem⟩) hy
      · -- booleans and their literals have nothing inside
        refine ⟨_, fun c hc => ?_⟩
        rcases hc with ⟨hh, ht, -⟩ | ⟨hcu, -⟩
        · obtain ⟨element, hk'⟩ := (h.suits hy).eq_array hh ht
          simp [isBooleanPart, isBoolean, booleanLiteral?, hk'] at hpart
        · exact absurd hcu hl.not_union

/-- Whatever a root leads to is written out in the program, or is left of something that is. -/
theorem Valid.exists_built (h : b.Valid o hooks []) {p : Program} {roots : List Model.Root}
    (hp : b.finish.Programs roots p) {root : Model.Root} (hroot : root ∈ roots)
    (hd : (d, root.node) ∈ b.known) {c : D} (hr : Reaches o hooks d c) :
    ∃ u x, (u, x) ∈ b.known ∧ b.finish.Built p x ∧
      ∀ l, Leaf o hooks c l → Leaf o hooks u l := by
  induction hr with
  | refl => exact ⟨d, root.node, hd, hp.built hroot, fun _ hl => hl⟩
  | @tail e c _ hc ih =>
    obtain ⟨u, x, hux, hbuilt, hleaves⟩ := ih
    rcases mem_children hc with ⟨hu, hm⟩ | ⟨hh, ht, f, hf, rfl⟩ | ⟨hh, ht, he⟩
    · exact ⟨u, x, hux, hbuilt, fun l hl => hleaves l (.member hu hm hl)⟩
    · have hl := hleaves e (.self fun hu => by simp [hu.2] at ht)
      obtain ⟨y, r, members, -, -, hpart, hmembers⟩ := h.exists_record_part hux hl hh ht
      obtain ⟨m, hm, -, hfm⟩ := exists_of_mem_left hmembers hf
      exact ⟨f.2, m.2, hfm, hbuilt.field h.flat h.numbered hp.covers hpart m hm, fun _ hl => hl⟩
    · have hl := hleaves e (.self fun hu => by simp [hu.2] at ht)
      obtain ⟨z, c', hpart, he', hz⟩ := h.exists_array_part hux hl hh ht
      obtain rfl := Option.some.inj (he.symm.trans he')
      exact ⟨c, z, hz, hbuilt.element h.flat hpart, fun _ hl => hl⟩

theorem Valid.acc_of_programs (h : b.Valid o hooks []) {p : Program} {roots : List Model.Root}
    (hp : b.finish.Programs roots p) {root : Model.Root} (hroot : root ∈ roots)
    (hd : (d, root.node) ∈ b.known) {c : D} (hr : Reaches o hooks d c) :
    Acc (Inside o hooks) c := by
  obtain ⟨u, x, hux, hbuilt, hleaves⟩ := h.exists_built hp hroot hd hr
  exact acc_of_leaves (h.acc_inside hbuilt.acc hux) hleaves

/-- Where no type that was looked at is endless, a program can be written. -/
theorem Valid.exists_program (h : b.Valid o hooks []) {requests : List (Request D)}
    {roots : List Model.Root} (hroots : List.Forall₂ (RootOf o b) requests roots)
    (hacc : ∀ d ∈ b.known, Acc (Inside o hooks) d.1) (routines : List Routine) :
    ∃ p, b.finish.program roots routines = .ok p := by
  refine Model.exists_program h.flat h.whole ?_ ?_ routines
  · intro root hroot
    obtain ⟨q, -, -, -, hq⟩ := exists_of_mem_right hroots hroot
    exact h.acc_within (hacc _ hq) hq
  · intro id record members hk f hf
    have hk : b.kind id = .record record members := hk
    obtain ⟨d, hd⟩ := h.exists_type (by rw [hk]; simp) (by rw [hk]; simp)
    obtain ⟨-, -, hmembers⟩ := h.of_record hd List.not_mem_nil hk
    obtain ⟨g, -, -, hg⟩ := exists_of_mem_right hmembers hf
    exact h.acc_within (hacc _ hg) hg

end Builder

end Conform
