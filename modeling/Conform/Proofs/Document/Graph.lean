import Mathlib.Data.List.Nodup
import Conform.Schema.Document
import Conform.Proofs.Builder.Graph
import Conform.Proofs.Model.Direct

/-! Compiling a document goes through a model of its types. Running the program is visiting that
model, and without conversions it is the direct check of the node that each request asks for. -/

namespace Conform.Document

/-- The model of a document and the nodes of what it generates. -/
def graph (doc : Document) : Except BuildError (List Model.Root × Model) := do
  let r ← doc.resolve.mapError .resolve
  let (roots, b) ← (do
    Builder.checkHooks r.table.oracle r.hooks
    resolveRoots r.table.oracle r.hooks .empty r.requests).mapError .compile
  return (roots, b.finish)

theorem resolve_eq_ok {doc : Document} {r : Resolved} :
    doc.resolve = .ok r ↔ ∃ t t', doc.table = .ok t ∧
      internRequests t [] doc.generate = .ok (r.requests, t') ∧
      internHooks t' 1 doc.conversions = .ok (r.hooks, r.table) := by
  constructor
  · intro h
    obtain ⟨t, ht, h⟩ := bind_eq_ok.1 h
    obtain ⟨⟨requests, t'⟩, hreq, h⟩ := bind_eq_ok.1 h
    obtain ⟨⟨hooks, t''⟩, hhooks, h⟩ := bind_eq_ok.1 h
    cases h
    exact ⟨t, t', mapError_eq_ok.1 ht, hreq, mapError_eq_ok.1 hhooks⟩
  · rintro ⟨t, t', ht, hreq, hhooks⟩
    refine bind_eq_ok.2 ⟨t, mapError_eq_ok.2 ht, bind_eq_ok.2 ⟨_, hreq, ?_⟩⟩
    exact bind_eq_ok.2 ⟨_, mapError_eq_ok.2 hhooks, rfl⟩

theorem internRequests_cons_eq_ok {t u : Table} {seen : List String} {g : GenerateSpec}
    {gs : List GenerateSpec} {requests : List (Request TypeId)} :
    internRequests t seen (g :: gs) = .ok (requests, u) ↔ g.name ∉ seen ∧
      ∃ d t₁ rest, t.intern g.type = (.ok d, t₁) ∧
        internRequests t₁ (g.name :: seen) gs = .ok (rest, u) ∧
        requests = ⟨g.name, d⟩ :: rest := by
  rw [internRequests]
  constructor
  · intro h
    split_ifs at h with hseen
    refine ⟨by simpa using hseen, ?_⟩
    split at h
    · cases h
    · rename_i d t₁ hd
      obtain ⟨⟨rest, u'⟩, hrest, h⟩ := bind_eq_ok.1 h
      cases h
      exact ⟨d, t₁, rest, hd, hrest, rfl⟩
  · rintro ⟨hseen, d, t₁, rest, hd, hrest, rfl⟩
    rw [if_neg (by simpa using hseen), hd]
    exact bind_eq_ok.2 ⟨_, hrest, rfl⟩

theorem internHooks_cons_eq_ok {t u : Table} {number : ConversionId} {c : ConversionSpec}
    {cs : List ConversionSpec} {hooks : List (Hook TypeId)} :
    internHooks t number (c :: cs) = .ok (hooks, u) ↔
      ∃ d t₁ rest, t.intern c.type = (.ok d, t₁) ∧
        internHooks t₁ (number + 1) cs = .ok (rest, u) ∧
        hooks = ⟨d, c.script, number⟩ :: rest := by
  rw [internHooks]
  constructor
  · intro h
    split at h
    · cases h
    · rename_i d t₁ hd
      obtain ⟨⟨rest, u'⟩, hrest, h⟩ := bind_eq_ok.1 h
      cases h
      exact ⟨d, t₁, rest, hd, hrest, rfl⟩
  · rintro ⟨d, t₁, rest, hd, hrest, rfl⟩
    rw [hd]
    exact bind_eq_ok.2 ⟨_, hrest, rfl⟩

/-- What compiling a document comes to. -/
structure Compiles (doc : Document) (r : Resolved) (roots : List Model.Root)
    (b : Builder TypeId) (p : Program) : Prop where
  resolved : doc.resolve = .ok r
  unclashed : Builder.checkHooks r.table.oracle r.hooks = .ok ()
  rooted : resolveRoots r.table.oracle r.hooks .empty r.requests = .ok (roots, b)
  written : b.finish.program roots (r.hooks.map (routineOf r.table.oracle)) = .ok p

theorem compile_eq_ok {doc : Document} {p : Program} :
    doc.compile = .ok p ↔ ∃ r roots b, doc.Compiles r roots b p := by
  constructor
  · intro h
    obtain ⟨r, hr, h⟩ := bind_eq_ok.1 h
    obtain ⟨u, hhooks, h⟩ := bind_eq_ok.1 (mapError_eq_ok.1 h)
    obtain ⟨⟨roots, b⟩, hroots, h⟩ := bind_eq_ok.1 h
    exact ⟨r, roots, b, mapError_eq_ok.1 hr, hhooks, hroots, h⟩
  · rintro ⟨r, roots, b, h⟩
    refine bind_eq_ok.2 ⟨r, mapError_eq_ok.2 h.resolved, mapError_eq_ok.2 ?_⟩
    exact bind_eq_ok.2 ⟨(), h.unclashed, bind_eq_ok.2 ⟨(roots, b), h.rooted, h.written⟩⟩

section

variable {doc : Document} {r : Resolved} {roots : List Model.Root} {b : Builder TypeId}
  {p : Program}

theorem Compiles.graph (h : doc.Compiles r roots b p) : doc.graph = .ok (roots, b.finish) := by
  refine bind_eq_ok.2 ⟨r, mapError_eq_ok.2 h.resolved, ?_⟩
  exact bind_eq_ok.2 ⟨(roots, b), mapError_eq_ok.2 (bind_eq_ok.2 ⟨(), h.unclashed, h.rooted⟩), rfl⟩

theorem Compiles.advances (h : doc.Compiles r roots b p) :
    b.Valid r.table.oracle r.hooks [] ∧
      List.Forall₂ (RootOf r.table.oracle b) r.requests roots := by
  obtain ⟨ha, hroots⟩ := resolveRoots_advances Builder.valid_empty h.rooted
  exact ⟨ha.valid, hroots⟩

theorem internRequests_names {t t' : Table} {seen : List String} {gs : List GenerateSpec}
    {requests : List (Request TypeId)} (h : internRequests t seen gs = .ok (requests, t')) :
    requests.map (·.name) = gs.map (·.name) ∧ (gs.map (·.name)).Nodup ∧
      ∀ g ∈ gs, g.name ∉ seen := by
  induction gs generalizing t seen requests with
  | nil =>
    cases h
    exact ⟨rfl, List.nodup_nil, by simp⟩
  | cons g gs ih =>
    obtain ⟨hseen, d, t₁, rest, -, hrest, rfl⟩ := internRequests_cons_eq_ok.1 h
    obtain ⟨hnames, hnodup, hfresh⟩ := ih hrest
    refine ⟨by simp [hnames], ?_, ?_⟩
    · rw [List.map_cons, List.nodup_cons]
      refine ⟨fun hmem => ?_, hnodup⟩
      obtain ⟨g', hg', he⟩ := List.mem_map.1 hmem
      exact hfresh g' hg' (by simp [he])
    · intro g' hg'
      rcases List.mem_cons.1 hg' with rfl | hg'
      · exact hseen
      · exact fun hmem => hfresh g' hg' (List.mem_cons_of_mem _ hmem)

theorem Compiles.names (h : doc.Compiles r roots b p) :
    roots.map (·.name) = doc.generate.map (·.name) ∧ (roots.map (·.name)).Nodup := by
  obtain ⟨t, t', -, hreq, -⟩ := resolve_eq_ok.1 h.resolved
  obtain ⟨hnames, hnodup, -⟩ := internRequests_names hreq
  rw [names_roots h.advances.2, hnames]
  exact ⟨rfl, hnodup⟩

theorem Compiles.hooks_nil (h : doc.Compiles r roots b p) (hc : doc.conversions = []) :
    r.hooks = [] := by
  obtain ⟨t, t', -, -, hhooks⟩ := resolve_eq_ok.1 h.resolved
  rw [hc] at hhooks
  exact (congrArg Prod.fst (Except.ok.inj hhooks)).symm

theorem Compiles.programs (h : doc.Compiles r roots b p) : b.finish.Programs roots p :=
  Model.Programs.of_program h.advances.1.model_counted h.advances.1.numbered h.written

/-- Without conversions a validator checks the node of its root directly. -/
theorem Compiles.validate (h : doc.Compiles r roots b p) (hc : doc.conversions = [])
    {root : Model.Root} (hroot : root ∈ roots) (ts : Transforms) (v : Value) :
    p.validate ts root.name v = (b.finish.check root.node "value" v).map fun _ => v := by
  obtain ⟨hv, -⟩ := h.advances
  have hplain : b.finish.Plain := by
    rw [h.hooks_nil hc] at hv
    exact hv.plain
  rw [h.programs.validate hv.flat hv.numbered (Or.inl hplain) h.names.2 hroot,
    hplain.visit_getD hv.flat]

end

theorem forall₂_of_names {gs : List GenerateSpec} {roots : List Model.Root}
    (hnames : roots.map (·.name) = gs.map (·.name)) {P : Model.Root → Prop}
    (h : ∀ root ∈ roots, P root) :
    List.Forall₂ (fun g root => root.name = g.name ∧ P root) gs roots := by
  induction gs generalizing roots with
  | nil =>
    rw [List.map_eq_nil_iff.1 hnames]
    exact .nil
  | cons g gs ih =>
    cases roots with
    | nil => simp at hnames
    | cons root roots =>
      rw [List.map_cons, List.map_cons, List.cons.injEq] at hnames
      exact .cons ⟨hnames.1, h root (by simp)⟩ (ih hnames.2 fun x hx => h x (by simp [hx]))

/-- Compiling and running is checking directly: each validator of a document without conversions
gives a value back as it is where the check of its node in the model passes, and fails with the
error of the check where it does not. -/
theorem validate_eq_check (doc : Document) (p : Program) (hc : doc.conversions = [])
    (h : doc.compile = .ok p) :
    ∃ roots m, doc.graph = .ok (roots, m) ∧
      List.Forall₂ (fun g root => root.name = g.name ∧ ∀ ts v,
        p.validate ts g.name v = (m.check root.node "value" v).map fun _ => v)
        doc.generate roots := by
  obtain ⟨r, roots, b, h⟩ := compile_eq_ok.1 h
  refine ⟨roots, b.finish, h.graph, ?_⟩
  refine List.Forall₂.imp ?_ (forall₂_of_names h.names.1 fun root hroot => h.validate hc hroot)
  rintro g root ⟨hname, hvalidate⟩
  rw [hname] at hvalidate
  exact ⟨hname, hvalidate⟩

/-- A tree of numbers, each with more trees below it or none. -/
def trees : Document :=
  { empty with
    types := [("Tree", .record [("value", .name "number"),
      ("below", .union [.array (.name "Tree"), .name "undefined"])])]
    generate := [⟨"parseTree", .name "Tree"⟩] }

theorem validate_eq_check_trees : ∃ p, trees.compile = .ok p ∧
    ∃ roots m, trees.graph = .ok (roots, m) ∧
      List.Forall₂ (fun g root => root.name = g.name ∧ ∀ ts v,
        p.validate ts g.name v = (m.check root.node "value" v).map fun _ => v)
        trees.generate roots := by
  obtain ⟨p, hp⟩ : ∃ p, trees.compile = .ok p := exists_of_isOk (by decide +kernel)
  exact ⟨p, hp, validate_eq_check trees p rfl hp⟩

end Conform.Document
