import Conform.Proofs.Builder.Matching
import Conform.Proofs.Builder.Pieces
import Conform.Proofs.Model.Likeness

/-! Two oracles whose types correspond, with the same literals, field names and conversions. Nodes
that two builders have for such types are alike, whatever else the builders were asked for. -/

namespace Conform

variable {D D' D'' : Type} [DecidableEq D] [DecidableEq D'] [DecidableEq D''] {o : Oracle D}
  {o' : Oracle D'} {o'' : Oracle D''} {hooks : List (Hook D)} {hooks' : List (Hook D')}
  {hooks'' : List (Hook D'')} {R : D → D' → Prop}

/-- Whether related descriptors are the same types with the same conversions. -/
structure Mirrors (o : Oracle D) (hooks : List (Hook D)) (o' : Oracle D') (hooks' : List (Hook D'))
    (R : D → D' → Prop) : Prop extends Matches o hooks o' hooks' R where
  conversion : ∀ {x y}, R x y →
    (hook? hooks x).map (·.conversion) = (hook? hooks' y).map (·.conversion)
  value : ∀ {x y}, R x y →
    (o.literalValue x).map Literal.normal = (o'.literalValue y).map Literal.normal
  names : ∀ {x y}, R x y → Fields.names (o.recordFields x) = Fields.names (o'.recordFields y)

/-- Whether pieces are those of related types. -/
inductive Piece.Rel (R : D → D' → Prop) : Piece D → Piece D' → Prop
  | type {x : D} {y : D'} : R x y → Rel R (.type x) (.type y)
  | both : Rel R .both .both

section

variable {α β γ : Type _} {S : α → β → Prop} {T : α → γ → Prop}

theorem forall₂_span {xs : List α} {ys : List β} {zs : List γ} (h : List.Forall₂ S xs ys)
    (h' : List.Forall₂ T xs zs) : List.Forall₂ (fun y z => ∃ x, S x y ∧ T x z) ys zs := by
  induction h generalizing zs with
  | nil =>
    cases h'
    exact .nil
  | cons hxy _ ih =>
    cases h' with
    | cons hxz h' => exact .cons ⟨_, hxy, hxz⟩ (ih h')

theorem optionRel_span {x : Option α} {y : Option β} {z : Option γ} (h : Option.Rel S x y)
    (h' : Option.Rel T x z) : Option.Rel (fun y z => ∃ x, S x y ∧ T x z) y z := by
  cases h with
  | none =>
    cases h'
    exact .none
  | some hxy =>
    cases h' with
    | some hxz => exact .some ⟨_, hxy, hxz⟩

theorem map_eq_of_forall₂ {f : α → γ} {g : β → γ} {xs : List α} {ys : List β}
    (h : List.Forall₂ S xs ys) (hfg : ∀ x ∈ xs, ∀ y ∈ ys, S x y → f x = g y) :
    xs.map f = ys.map g := by
  induction h with
  | nil => rfl
  | cons hxy _ ih =>
    rw [List.map_cons, List.map_cons, hfg _ (by simp) _ (by simp) hxy,
      ih fun x hx y hy => hfg x (by simp [hx]) y (by simp [hy])]

end

namespace Mirrors

theorem span {Q : D → D'' → Prop} (h : Mirrors o hooks o' hooks' R)
    (h' : Mirrors o hooks o'' hooks'' Q) :
    Mirrors o' hooks' o'' hooks'' fun y z => ∃ x, R x y ∧ Q x z where
  left := by
    rintro y z z' ⟨x, hxy, hxz⟩ ⟨x', hxy', hxz'⟩
    obtain rfl := h.right hxy hxy'
    exact h'.left hxz hxz'
  right := by
    rintro y y' z ⟨x, hxy, hxz⟩ ⟨x', hxy', hxz'⟩
    obtain rfl := h'.right hxz hxz'
    exact h.left hxy hxy'
  hook := fun ⟨_, hxy, hxz⟩ => (h.hook hxy).symm.trans (h'.hook hxz)
  trait := fun ⟨_, hxy, hxz⟩ => (h.trait hxy).symm.trans (h'.trait hxz)
  literal := fun ⟨_, hxy, hxz⟩ => (h.literal hxy).symm.trans (h'.literal hxz)
  members := fun ⟨_, hxy, hxz⟩ => forall₂_span (h.members hxy) (h'.members hxz)
  fields := fun ⟨_, hxy, hxz⟩ => (forall₂_span (h.fields hxy) (h'.fields hxz)).imp
    fun _ _ ⟨f, hf⟩ => ⟨f.2, hf⟩
  element := fun ⟨_, hxy, hxz⟩ => optionRel_span (h.element hxy) (h'.element hxz)
  conversion := fun ⟨_, hxy, hxz⟩ => (h.conversion hxy).symm.trans (h'.conversion hxz)
  value := fun ⟨_, hxy, hxz⟩ => (h.value hxy).symm.trans (h'.value hxz)
  names := fun ⟨_, hxy, hxz⟩ => (h.names hxy).symm.trans (h'.names hxz)

variable (h : Mirrors o hooks o' hooks' R) {x : D} {y : D'}

include h

theorem facet (hxy : R x y) : facetOf o hooks x = facetOf o' hooks' y := by
  have hvalue : (o.literalValue x).map literalFacet = (o'.literalValue y).map literalFacet := by
    have hnormal : literalFacet ∘ Literal.normal = literalFacet := by
      funext l
      cases l <;> rfl
    rw [← hnormal, ← Option.map_map, ← Option.map_map, h.value hxy]
  have hh := h.hook_none hxy
  unfold facetOf
  rw [← h.trait hxy, hvalue]
  cases hx : hook? hooks x with
  | none =>
    rw [hh.1 hx]
    cases o.trait? x with
    | none => rfl
    | some t => cases t <;> rfl
  | some k =>
    cases hy : hook? hooks' y with
    | none => simp [hh.2 hy] at hx
    | some k' => rfl

theorem piece_unique : Relator.BiUnique (Piece.Rel R) := by
  constructor
  · rintro p p' q (hp | _) (hp' | _)
    · rw [h.right hp hp']
    · rfl
  · rintro p q q' (hq | _) (hq' | _)
    · rw [h.left hq hq']
    · rfl

theorem foldPiece {ps : List (Piece D)} {ps' : List (Piece D')} {p : Piece D} {p' : Piece D'}
    (hps : List.Forall₂ (Piece.Rel R) ps ps') (hp : Piece.Rel R p p') :
    List.Forall₂ (Piece.Rel R) (foldPiece o hooks ps p) (Conform.foldPiece o' hooks' ps' p') := by
  refine foldBy_rel h.piece_unique (fun p q hpq => ?_) (fun _ _ hpq => hpq) .both hps hp
  cases hpq with
  | type hxy => exact h.facet hxy
  | both => rfl

theorem foldPieces {ms ps : List (Piece D)} {ms' ps' : List (Piece D')}
    (hms : List.Forall₂ (Piece.Rel R) ms ms') (hps : List.Forall₂ (Piece.Rel R) ps ps') :
    List.Forall₂ (Piece.Rel R) (ms.foldl (Conform.foldPiece o hooks) ps)
      (ms'.foldl (Conform.foldPiece o' hooks') ps') := by
  induction hms generalizing ps ps' with
  | nil => exact hps
  | cons hp _ ih => exact ih (h.foldPiece hps hp)

theorem pieces {ps qs : List (Piece D)} {ps' qs' : List (Piece D')} {ds : List D} {ds' : List D'}
    (hp : Pieces o hooks ps ds qs) (hp' : Pieces o' hooks' ps' ds' qs')
    (hps : List.Forall₂ (Piece.Rel R) ps ps') (hds : List.Forall₂ R ds ds') :
    List.Forall₂ (Piece.Rel R) qs qs' := by
  induction hp generalizing ps' qs' ds' with
  | nil =>
    cases hds
    cases hp'
    exact hps
  | leaf hu _ ih =>
    cases hds with
    | cons hr hds =>
      cases hp' with
      | leaf _ hp' => exact ih hp' (h.foldPiece hps (.type hr)) hds
      | union hu' => exact absurd ((h.isUnion hr).2 hu') hu
  | union hu _ _ ihm ih =>
    cases hds with
    | cons hr hds =>
      cases hp' with
      | leaf hu' => exact absurd ((h.isUnion hr).1 hu) hu'
      | union _ hms hp' =>
        exact ih hp' (h.foldPieces (ihm hms .nil (h.members hr)) hps) hds

/-- A node without parts is that of every related type, but for the sign of a zero. -/
theorem suits_leaf (hxy : R x y) {k k' : NodeKind} (hs : Suits o hooks x k) (hk : k.isLeaf)
    (hs' : Suits o' hooks' y k') : k.normal = k'.normal := by
  have hh := h.hook_none hxy
  have ht := h.trait hxy
  cases hs with
  | conversion hc =>
    have hc' := h.conversion hxy
    rw [hc] at hc'
    cases hs' with
    | conversion hd =>
      rw [hd] at hc'
      exact congrArg _ (congrArg _ (Option.some.inj hc'))
    | union hu => simp [hu.1] at hc'
    | simple hn | literal hn | array hn | record hn => simp [hn] at hc'
  | simple hn hx hs => rw [hs'.eq_simple (hh.1 hn) (ht.symm.trans hx) hs]
  | literal hn hx hl hv =>
    obtain ⟨value, rfl, hv'⟩ := hs'.eq_literal (hh.1 hn) (ht.symm.trans hx) hl
    have hvalue := h.value hxy
    rw [hv, hv'] at hvalue
    exact congrArg NodeKind.literal (Option.some.inj hvalue)
  | array | union | record => cases hk

end Mirrors

namespace Builder

/-- Whether nodes of two builders are those of related types. -/
def Twins (R : D → D' → Prop) (b : Builder D) (b' : Builder D') (x y : NodeId) : Prop :=
  ∃ p q, b.IsPiece p x ∧ b'.IsPiece q y ∧ Piece.Rel R p q

variable {b : Builder D} {b' : Builder D'} {x y : NodeId}

omit [DecidableEq D] [DecidableEq D'] in
theorem twins_fields {fs : List (String × D)} {fs' : List (String × D')}
    {ms ms' : List (String × NodeId)} (hn : Fields.names fs = Fields.names fs')
    (hr : List.Forall₂ (fun f g => R f.2 g.2) fs fs')
    (hm : List.Forall₂ (fun f m => m.1 = f.1 ∧ (f.2, m.2) ∈ b.known) fs ms)
    (hm' : List.Forall₂ (fun f m => m.1 = f.1 ∧ (f.2, m.2) ∈ b'.known) fs' ms') :
    List.Forall₂ (fun m m' => m.1 = m'.1 ∧ Twins R b b' m.2 m'.2) ms ms' := by
  induction hr generalizing ms ms' with
  | nil =>
    cases hm
    cases hm'
    exact .nil
  | cons hfg _ ih =>
    obtain ⟨hname, hn⟩ := List.cons.inj hn
    cases hm with
    | cons hx hm =>
      cases hm' with
      | cons hy hm' =>
        refine .cons ⟨?_, .type _, .type _, hx.2, hy.2, .type hfg⟩ (ih hn hm hm')
        exact hx.1.trans (hname.trans hy.1.symm)

/-- The nodes of related types are of the same kinds, with parts that are nodes of related types. -/
theorem Twins.like (h : Mirrors o hooks o' hooks' R) (hv : b.Valid o hooks [])
    (hv' : b'.Valid o' hooks' []) (hxy : Twins R b b' x y) (hu : (b.kind x).isUnion = false) :
    NodeKind.Like (Twins R b b') (b.kind x) (b'.kind y) := by
  obtain ⟨p, q, hx, hy, hpq⟩ := hxy
  cases hpq with
  | both =>
    rw [hv.both x hx, hv'.both y hy]
    exact .leaf rfl rfl
  | @type d e hde =>
    cases hk : b.kind x with
    | array element =>
      obtain ⟨hh, ht, a, c, rfl, hc, ha⟩ := hv.of_array hx List.not_mem_nil hk
      obtain ⟨a', c', hk', hc', ha'⟩ := hv'.exists_array hy List.not_mem_nil
        ((h.hook_none hde).1 hh) ((h.trait hde).symm.trans ht)
      rw [hk']
      have hcc := h.element hde
      rw [hc, hc'] at hcc
      cases hcc with
      | some hcc => exact .array ⟨.type c, .type c', ha, ha', .type hcc⟩
    | record r members =>
      obtain ⟨hh, ht, hf⟩ := hv.of_record hx List.not_mem_nil hk
      obtain ⟨r', members', hk', hf'⟩ := hv'.exists_record hy List.not_mem_nil
        ((h.hook_none hde).1 hh) ((h.trait hde).symm.trans ht)
      rw [hk']
      exact .record (twins_fields (h.names hde) (h.fields hde) hf hf')
    | union members => simp [hk, NodeKind.isUnion] at hu
    | _ => exact .leaf rfl (h.suits_leaf hde (hk ▸ hv.suits hx) rfl (hv'.suits hy))

theorem Twins.alike (h : Mirrors o hooks o' hooks' R) (hv : b.Valid o hooks [])
    (hv' : b'.Valid o' hooks' []) (hp : b.Pieced o hooks []) (hp' : b'.Pieced o' hooks' []) :
    Model.Alike (Twins R b b') b.finish b'.finish := by
  have hlike : ∀ {x y : NodeId}, Twins R b b' x y → (b.finish.kind x).isUnion = false →
      NodeKind.Like (Twins R b b') (b.finish.kind x) (b'.finish.kind y) :=
    fun hxy hu => hxy.like h hv hv' hu
  intro x y hxy
  cases hu : (b.finish.kind x).isUnion with
  | false =>
    have hk := hlike hxy hu
    rw [Model.parts_of_not_isUnion hu, Model.parts_of_not_isUnion hk.not_isUnion]
    exact .cons hk .nil
  | true =>
    obtain ⟨p, q, hx, hy, hpq⟩ := hxy
    cases hpq with
    | both =>
      have hk : b.finish.kind x = .boolean := hv.both x hx
      simp [hk, NodeKind.isUnion] at hu
    | @type d e hde =>
      have hud := (hv.suits hx).isUnion_iff.1 hu
      obtain ⟨ms, hk⟩ := (hv.suits hx).eq_union hud
      obtain ⟨ms', hk'⟩ := (hv'.suits hy).eq_union ((h.isUnion hde).1 hud)
      obtain ⟨ps, hps, hm⟩ := hp.pieces hx List.not_mem_nil hk
      obtain ⟨qs, hqs, hm'⟩ := hp'.pieces hy List.not_mem_nil hk'
      have hpq := h.pieces hps hqs .nil (h.members hde)
      have hk : b.finish.kind x = .union ms := hk
      have hk' : b'.finish.kind y = .union ms' := hk'
      rw [Model.parts, Model.parts, hk, hk']
      dsimp only
      rw [List.forall₂_map_left_iff, List.forall₂_map_right_iff]
      have hms := forall₂_span (forall₂_span hm hpq).flip hm'
      refine ((List.forall₂_and_left _ _).2 ⟨hv.flat x ms hk, hms⟩).imp ?_
      rintro a c ⟨hua, q, ⟨p, hpa, hrel⟩, hqc⟩
      exact hlike ⟨p, q, hpa, hqc, hrel⟩ hua

end Builder

end Conform
