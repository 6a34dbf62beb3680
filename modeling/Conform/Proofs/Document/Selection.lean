import Conform.Proofs.Builder.Mirroring
import Conform.Proofs.Document.Order
import Conform.Proofs.Document.Revalidation

/-! What a validator does is the same whatever else a document is asked for, before it or after
it. Each request leads to the types that it leads to alone, and a model has nodes for them that are
alike in every company. -/

namespace Conform

namespace Table.Embeds

variable {t t' : Table} {f : TypeId → TypeId} {hooks hooks' : List (Hook TypeId)} {d : TypeId}

theorem conversion (h : t.Embeds f t') (hlt : ∀ d ∈ hooks.map (·.result), d < t.entries.size)
    (hr : hooks'.map (·.result) = (hooks.map (·.result)).map f)
    (hc : hooks'.map (·.conversion) = hooks.map (·.conversion)) (hd : d < t.entries.size) :
    (hook? hooks d).map (·.conversion) = (hook? hooks' (f d)).map (·.conversion) := by
  induction hooks generalizing hooks' with
  | nil =>
    rw [List.map_eq_nil_iff.1 hc]
    rfl
  | cons k ks ih =>
    cases hooks' with
    | nil => cases hc
    | cons k' ks' =>
      obtain ⟨hresult, hr⟩ := List.cons.inj hr
      obtain ⟨hnumber, hc⟩ := List.cons.inj hc
      have hrest := ih (fun d hd => hlt d (List.mem_cons_of_mem _ hd)) hr hc
      have hsame : (k.result == d) = (k'.result == f d) := by
        rw [Bool.eq_iff_iff, beq_iff_eq, beq_iff_eq, show k'.result = f k.result from hresult]
        exact ⟨congrArg f, h.injective (hlt _ List.mem_cons_self) hd⟩
      rw [hook?, hook?, List.find?_cons, List.find?_cons, hsame]
      cases k'.result == f d
      · exact hrest
      · exact congrArg some hnumber.symm

theorem value (h : t.Embeds f t') (hd : d < t.entries.size) :
    (t.literalValue d).map Literal.normal = (t'.literalValue (f d)).map Literal.normal := by
  have hs := h.shape hd
  unfold Table.literalValue
  generalize t.shape d = s at hs
  generalize t'.shape (f d) = s' at hs
  cases s <;> cases s' <;> simp_all [Shape.rename, Shape.normal]

theorem mirrors (h : t.Embeds f t') (ht : t.Tidy)
    (hlt : ∀ d ∈ hooks.map (·.result), d < t.entries.size)
    (hr : hooks'.map (·.result) = (hooks.map (·.result)).map f)
    (hc : hooks'.map (·.conversion) = hooks.map (·.conversion)) :
    Mirrors t.oracle hooks t'.oracle hooks' fun x y => x < t.entries.size ∧ y = f x where
  toMatches := h.oracle ht hlt hr
  conversion := by
    rintro x y ⟨hx, rfl⟩
    exact h.conversion hlt hr hc hx
  value := by
    rintro x y ⟨hx, rfl⟩
    exact h.value hx
  names := by
    rintro x y ⟨hx, rfl⟩
    change Fields.names (t.recordFields x) = Fields.names (t'.recordFields (f x))
    rw [h.recordFields hx, Fields.names, Fields.names, List.map_map]
    rfl

end Table.Embeds

namespace Document

variable {doc : Document} {r s : Resolved} {roots : List Model.Root} {b : Builder TypeId}
  {p : Program} {g : GenerateSpec} {gs : List GenerateSpec}

theorem conversions_of_internHooks {t u : Table} {number : ConversionId} {cs : List ConversionSpec}
    {hooks : List (Hook TypeId)} (h : internHooks t number cs = .ok (hooks, u)) :
    hooks.map (·.conversion) = List.range' number cs.length := by
  induction cs generalizing t number hooks with
  | nil =>
    cases h
    rfl
  | cons c cs ih =>
    obtain ⟨d, t₁, rest, -, hrest, rfl⟩ := internHooks_cons_eq_ok.1 h
    rw [List.map_cons, ih hrest, List.length_cons, List.range'_succ]

theorem Compiles.pieced (h : doc.Compiles r roots b p) : b.Pieced r.table.oracle r.hooks [] :=
  ((Builder.resolveRoots_runs Builder.valid_empty h.rooted).pieced .empty).1

theorem conversions_of_resolve (h : doc.resolve = .ok r) :
    r.hooks.map (·.conversion) = List.range' 1 doc.conversions.length := by
  obtain ⟨t, t', -, -, hhooks⟩ := resolve_eq_ok.1 h
  exact conversions_of_internHooks hhooks

/-- A request among others mirrors the request alone, which has the entry `d` then. -/
theorem Compiles.mirrors (hn : (Fields.names doc.types).Nodup)
    (h : Document.Compiles { doc with generate := gs } r roots b p) (hg : g ∈ gs)
    (hs : Document.resolve { doc with generate := [g] } = .ok s) {d : TypeId}
    (hd : s.requests.map (·.root) = [d]) :
    ∃ R, Mirrors s.table.oracle s.hooks r.table.oracle r.hooks R ∧
      ∃ root ∈ roots, root.name = g.name ∧ ∃ e, R d e ∧ (e, root.node) ∈ b.known := by
  have hstands : Document.Stands { doc with generate := gs } r := resolve_stands hn h.resolved
  have halone : Document.Stands { doc with generate := [g] } s := resolve_stands hn hs
  have htidy := halone.declares.tidy
  obtain ⟨q, hq, ⟨hname, -⟩, hq'⟩ := exists_of_mem_left
    (List.Forall₂.mp (fun _ _ a b => And.intro a b) hstands.requests
      (resolve_embeds hn h.resolved)) hg
  obtain ⟨f, d', hroots, hroot, hf, hresults⟩ := hq' hs
  obtain rfl : d' = d := by simpa using hroots.symm.trans hd
  have hlt : ∀ c ∈ s.hooks.map (·.result), c < s.table.entries.size := by
    intro c hc
    obtain ⟨k, hk, rfl⟩ := List.mem_map.1 hc
    obtain ⟨c, -, hc⟩ := exists_of_mem_right halone.hooks hk
    exact hc.lt htidy
  have hdlt : d' < s.table.entries.size := by
    obtain ⟨q', hq', rfl⟩ := List.mem_map.1 (hd ▸ List.mem_singleton_self d')
    obtain ⟨g', -, -, hspells⟩ := exists_of_mem_right halone.requests hq'
    exact hspells.lt htidy
  obtain ⟨root, hmem, hrname, -, hknown⟩ := exists_of_mem_left h.advances.2 hq
  refine ⟨_, hf.mirrors htidy hlt hresults ?_, root, hmem, hrname.trans hname, f d', ⟨hdlt, rfl⟩,
    hroot ▸ hknown⟩
  rw [conversions_of_resolve hs, conversions_of_resolve h.resolved]

/-- A validator does the same with every value, whichever requests of a document it was compiled
with, and in whichever order. -/
theorem validate_selection (doc : Document) (gs gs' : List GenerateSpec) (g : GenerateSpec)
    (p p' : Program) (ts : Transforms) (v : Value) (hn : (Fields.names doc.types).Nodup)
    (hd : doc.Distinct) (hgs : gs ⊆ doc.generate) (hgs' : gs' ⊆ doc.generate) (hg : g ∈ gs)
    (hg' : g ∈ gs') (h : Document.compile { doc with generate := gs } = .ok p)
    (h' : Document.compile { doc with generate := gs' } = .ok p') :
    p.validate ts g.name v = p'.validate ts g.name v := by
  obtain ⟨r, roots, b, h⟩ := compile_eq_ok.1 h
  obtain ⟨r', roots', b', h'⟩ := compile_eq_ok.1 h'
  -- the request alone need not compile, but it has entries
  obtain ⟨s, hs⟩ : ∃ s, Document.resolve { doc with generate := [g] } = .ok s := by
    obtain ⟨t, ht, -, hall, hc⟩ := exists_resolve.1 ⟨r, h.resolved⟩
    exact exists_resolve.2 ⟨t, ht, by simp, by simpa using hall g hg, hc⟩
  obtain ⟨d, hroot⟩ : ∃ d, s.requests.map (·.root) = [d] := by
    obtain ⟨t, t', -, hreq, -⟩ := resolve_eq_ok.1 hs
    obtain ⟨-, d, u, rest, -, hrest, hrequests⟩ := internRequests_cons_eq_ok.1 hreq
    cases hrest
    exact ⟨d, by rw [hrequests]; rfl⟩
  obtain ⟨R, hR, root, hmem, hname, e, he, hknown⟩ := h.mirrors hn hg hs hroot
  obtain ⟨R', hR', root', hmem', hname', e', he', hknown'⟩ := h'.mirrors hn hg' hs hroot
  have hvisit : b.finish.visit ts root.node "value" v = b'.finish.visit ts root'.node "value" v :=
    (Builder.Twins.alike (hR.span hR') h.advances.1 h'.advances.1 h.pieced h'.pieced).visit
      ⟨.type e, .type e', hknown, hknown', .type ⟨d, he, he'⟩⟩ v
  have hselect : ∀ {gs}, gs ⊆ doc.generate → Document.Distinct { doc with generate := gs } :=
    fun hsub => ⟨hd.types, hd.conversions, fun g hg => hd.generate g (hsub hg)⟩
  have hvalidate : p.validate ts root.name v =
      (b.finish.visit ts root.node "value" v).map fun w => w.getD v :=
    h.programs.validate h.advances.1.flat h.advances.1.numbered
      (Or.inr (h.distinct (hselect hgs))) h.names.2 hmem v
  have hvalidate' : p'.validate ts root'.name v =
      (b'.finish.visit ts root'.node "value" v).map fun w => w.getD v :=
    h'.programs.validate h'.advances.1.flat h'.advances.1.numbered
      (Or.inr (h'.distinct (hselect hgs'))) h'.names.2 hmem' v
  rw [← hname, hvalidate, hvisit, hname, ← hname', hvalidate']

/-- All that can be asked for of the document whose order matters. -/
def knot : Document :=
  { tangled with generate := [⟨"parseU", .name "U"⟩, ⟨"parseR", .name "R"⟩, ⟨"parseV", .name "V"⟩] }

theorem knot_distinct : knot.Distinct := by
  refine ⟨?_, ?_, ?_⟩ <;>
    simp [knot, tangled, empty, TypeExpr.Distinct, allDistinct, fieldsDistinct, Fields.names]

/-- The first union does the same after the record and after the second union, while it does not
compile alone. -/
theorem validate_selection_knot : ∃ p p',
    Document.compile { knot with generate := [⟨"parseR", .name "R"⟩, ⟨"parseU", .name "U"⟩] } =
      .ok p ∧
    Document.compile { knot with generate := [⟨"parseV", .name "V"⟩, ⟨"parseU", .name "U"⟩] } =
      .ok p' ∧
    p.validate .empty "parseU" (.object []) = p'.validate .empty "parseU" (.object []) := by
  obtain ⟨p, hp⟩ : ∃ p, Document.compile
      { knot with generate := [⟨"parseR", .name "R"⟩, ⟨"parseU", .name "U"⟩] } = .ok p :=
    exists_of_isOk (by decide +kernel)
  obtain ⟨p', hp'⟩ : ∃ p', Document.compile
      { knot with generate := [⟨"parseV", .name "V"⟩, ⟨"parseU", .name "U"⟩] } = .ok p' :=
    exists_of_isOk (by decide +kernel)
  exact ⟨p, p', hp, hp', validate_selection knot _ _ ⟨"parseU", .name "U"⟩ p p' .empty _ (by decide)
    knot_distinct (by simp [knot]) (by simp [knot]) (by simp) (by simp) hp hp'⟩

end Document

end Conform
