import Mathlib.Data.Fintype.EquivFin
import Conform.Proofs.Document.Soundness

/-! Hollow types take every value. Where values are checked against one, its entry and its node
are there already, and nothing is written for it: a validator for it can be asked for and gives
back whatever it is given. -/

namespace Conform

theorem Hollow.member {types : Table.Declarations} {es : List TypeExpr}
    (h : Hollow types (.union es)) : ∀ e ∈ es, Hollow types e :=
  fun _ he f hp => h f (.member .union he hp)

namespace Table

variable {types : Declarations} {t : Table}

mutual

theorem intern_hollow (h : Declares types t) {e : TypeExpr} {d : TypeId}
    (he : Hollow types e) (hs : t.Spells e d) : settle (t.lower e) = (.ok d, t) := by
  rcases hs with ⟨n, rfl, hn⟩ | ⟨s, hs, hl⟩
  · rw [lower, hn]
    rfl
  · cases e with
    | union es =>
      obtain ⟨ds, rfl, hds⟩ := hl
      rw [lower, internAll_hollow h he.member hds]
      have hsame : (Shape.union ds).same (.union ds) := by simp [Shape.same]
      simp only [shaped, settle, inline_of_hasInline h.tidy hs hsame]
    | name n =>
      obtain ⟨f, hr, hf⟩ := Spells.reads h (Or.inr ⟨s, hs, hl⟩)
      obtain ⟨-, k, -, rfl⟩ := hl
      rw [shape_eq hs] at hf
      obtain rfl := hf.keyword
      exact absurd (.self hr rfl) (he _)
    | literal value => exact absurd (.self .literal rfl) (he _)
    | bigint text =>
      obtain ⟨i, hi, -⟩ := hl
      exact absurd (.self (.bigint hi) rfl) (he _)
    | array element => exact absurd (.self .array rfl) (he _)
    | record fields => exact absurd (.self .record rfl) (he _)

theorem internAll_hollow (h : Declares types t) {es : List TypeExpr} {ds : List TypeId}
    (he : ∀ e ∈ es, Hollow types e) (hs : t.LowersAll es ds) :
    t.internAll es = (.ok ds, t) := by
  cases es with
  | nil =>
    obtain rfl := hs
    rfl
  | cons e es =>
    obtain ⟨d, ds', rfl, hd, hds⟩ := hs
    rw [internAll, intern_hollow (e := e) h (he e (by simp)) hd]
    dsimp only
    rw [internAll_hollow h (fun e' he' => he e' (by simp [he'])) hds]

end

end Table

namespace Builder.Valid

variable {D : Type} [DecidableEq D] {o : Oracle D} {hooks : List (Hook D)} {b : Builder D} {d : D}
  {id : NodeId}

theorem known_element (h : b.Valid o hooks []) (hd : (d, id) ∈ b.known)
    (hh : hook? hooks d = none) (ht : o.trait? d = some .array) {e : D}
    (he : o.arrayElement d = some e) : ∃ x, (e, x) ∈ b.known := by
  obtain ⟨x, y, -, hy, hx⟩ := h.exists_array hd List.not_mem_nil hh ht
  obtain rfl := Option.some.inj (he.symm.trans hy)
  exact ⟨x, hx⟩

theorem known_field (h : b.Valid o hooks []) (hd : (d, id) ∈ b.known)
    (hh : hook? hooks d = none) (ht : o.trait? d = some .record) {f : String × D}
    (hf : f ∈ o.recordFields d) : ∃ x, (f.2, x) ∈ b.known := by
  obtain ⟨-, members, -, hmembers⟩ := h.exists_record hd List.not_mem_nil hh ht
  obtain ⟨m, -, -, hm⟩ := exists_of_mem_left hmembers hf
  exact ⟨m.2, hm⟩

end Builder.Valid

/-! ### One more request -/

section

variable {D : Type} [DecidableEq D] {o : Oracle D} {hooks : List (Hook D)} {b b' : Builder D}

theorem resolveRoots_append {waiting : List NodeId} (hv : b'.Valid o hooks waiting)
    {requests : List (Request D)} {roots : List Model.Root}
    (h : resolveRoots o hooks b requests = .ok (roots, b')) {q : Request D} {id : NodeId}
    (hq : (q.root, id) ∈ b'.known) :
    resolveRoots o hooks b (requests ++ [q]) =
      .ok (roots ++ [⟨q.name, id, o.typeName q.root⟩], b') := by
  induction requests generalizing b roots with
  | nil =>
    obtain ⟨rfl, rfl⟩ : [] = roots ∧ b = b' := by simpa [resolveRoots] using h
    have hl : b.resolve o hooks q.root = (.ok id, b) := by
      rw [Builder.resolve, Builder.resolveWithin, (Builder.lookup_eq_some hv).2 hq]
    simp only [List.nil_append, resolveRoots, hl]
    rfl
  | cons r rs ih =>
    simp only [List.cons_append, resolveRoots] at h ⊢
    split at h
    · simp at h
    · obtain ⟨⟨roots', b₂⟩, hrs, h⟩ := bind_eq_ok.1 h
      cases h
      rw [ih hrs]
      rfl

end

namespace Model

variable {m : Model}

theorem stmts_empty {id : NodeId} (site : Site) (h : m.kind id = .union []) :
    m.stmts site id = .ok [] := by
  cases hn : m.node? id with
  | none => simp [kind, hn] at h
  | some node =>
    have hk := kind_of_node? hn
    rw [h] at hk
    simp only [stmts, extend, hn, ← hk]
    rfl

theorem validators_append {roots : List Root} {vs : List Validator} {root : Root}
    (h : m.validators roots = .ok vs) (hr : m.stmts .root root.node = .ok []) :
    m.validators (roots ++ [root]) = .ok (vs ++ [⟨root.name, root.returnType, []⟩]) := by
  induction roots generalizing vs with
  | nil =>
    obtain rfl := Except.ok.inj h
    simp only [List.nil_append, validators, hr]
    rfl
  | cons r rs ih =>
    obtain ⟨body, hb, h⟩ := bind_eq_ok.1 h
    obtain ⟨us, hus, h⟩ := bind_eq_ok.1 h
    obtain rfl := Except.ok.inj h
    simp only [List.cons_append, validators, hb, ih hus]
    rfl

theorem program_append {roots : List Root} {routines : List Routine} {p : Program} {root : Root}
    (h : m.program roots routines = .ok p) (hr : m.stmts .root root.node = .ok []) :
    ∃ p', m.program (roots ++ [root]) routines = .ok p' := by
  obtain ⟨vs, hvs, h⟩ := bind_eq_ok.1 h
  obtain ⟨checks, hchecks, -⟩ := bind_eq_ok.1 h
  refine ⟨_, bind_eq_ok.2 ⟨_, validators_append hvs hr, bind_eq_ok.2 ⟨checks, ?_, rfl⟩⟩⟩
  rw [List.flatMap_append]
  simpa [allCalls] using hchecks

end Model

namespace Document

theorem internRequests_append {t t' : Table} {seen : List String} {gs : List GenerateSpec}
    {requests : List (Request TypeId)} {g : GenerateSpec} {d : TypeId}
    (h : internRequests t seen gs = .ok (requests, t')) (hseen : g.name ∉ seen)
    (hg : g.name ∉ gs.map (·.name)) (hi : t'.intern g.type = (.ok d, t')) :
    internRequests t seen (gs ++ [g]) = .ok (requests ++ [⟨g.name, d⟩], t') := by
  induction gs generalizing t seen requests with
  | nil =>
    cases h
    exact internRequests_cons_eq_ok.2 ⟨hseen, d, t', [], hi, rfl, rfl⟩
  | cons g' gs ih =>
    rw [List.map_cons, List.mem_cons, not_or] at hg
    obtain ⟨hg', d', t₁, rest, hd', hrest, rfl⟩ := internRequests_cons_eq_ok.1 h
    have hseen' : g.name ∉ g'.name :: seen := by
      rw [List.mem_cons, not_or]
      exact ⟨hg.1, hseen⟩
    exact internRequests_cons_eq_ok.2
      ⟨hg', d', t₁, _, hd', ih hrest hseen' hg.2, rfl⟩

section

variable {doc : Document} {r : Resolved} {roots : List Model.Root} {b : Builder TypeId}
  {p : Program} {e : TypeExpr}

theorem Compiles.exists_node (h : doc.Compiles r roots b p) (hc : doc.conversions = [])
    (hs : doc.Stands r) (he : doc.Place e) :
    ∃ d id, r.table.Spells e d ∧ (d, id) ∈ b.known := by
  have hv := h.advances.1
  rw [h.hooks_nil hc] at hv
  induction he with
  | root hmem =>
    obtain ⟨g, hg, rfl⟩ := List.mem_map.1 hmem
    obtain ⟨root, -, d, -, hsd, hknown⟩ := h.exists_root hs hg
    exact ⟨d, root.node, hsd, hknown⟩
  | element _ hp ih =>
    obtain ⟨d, id, hsd, hknown⟩ := ih
    obtain ⟨l, hl, d', hshape, hsd'⟩ := hsd.leaf hs.declares hp
    obtain ⟨y, hy, -⟩ := hv.exists_part hknown hl
    have ht : r.table.oracle.trait? l = some .array := by
      rw [Table.trait?_oracle, hshape]
      rfl
    obtain ⟨x, hx⟩ := hv.known_element hy rfl ht (Table.arrayElement_eq.2 hshape)
    exact ⟨d', x, hsd', hx⟩
  | field _ hp hf ih =>
    obtain ⟨d, id, hsd, hknown⟩ := ih
    obtain ⟨l, hl, ds, hshape, hall⟩ := hsd.leaf hs.declares hp
    obtain ⟨y, hy, -⟩ := hv.exists_part hknown hl
    have ht : r.table.oracle.trait? l = some .record := by
      rw [Table.trait?_oracle, hshape]
      rfl
    obtain ⟨c, hc, -, hsc⟩ := exists_of_mem_left hall hf
    obtain ⟨x, hx⟩ := hv.known_field hy rfl ht ((Table.mem_recordFields hshape).2 hc)
    exact ⟨c.2, x, hsc, hx⟩

/-- A validator of a hollow type can be asked for as well, and accepts every value. -/
theorem Compiles.accepts_hollow (h : doc.Compiles r roots b p) (hc : doc.conversions = [])
    (hs : doc.Stands r) (he : doc.Place e) (hh : Hollow doc.types e) {name : String}
    (hname : name ∉ doc.generate.map (·.name)) :
    ∃ p', { doc with generate := doc.generate ++ [GenerateSpec.mk name e] }.compile = .ok p' ∧
      ∀ ts v, p'.validate ts name v = .ok v := by
  obtain ⟨d, id, hsd, hknown⟩ := h.exists_node hc hs he
  have hv := h.advances.1
  rw [h.hooks_nil hc] at hv
  -- a part would come from a leaf, which a hollow type does not have
  have hparts : b.finish.parts id = [] := by
    by_contra hne
    obtain ⟨k, hk⟩ := List.exists_mem_of_ne_nil _ hne
    obtain ⟨l, hl⟩ : ∃ l, Leaf r.table.oracle [] d l := by
      rcases hv.part hknown hk with ⟨l, -, hl, -⟩ | ⟨-, hboth⟩
      · exact ⟨l, hl⟩
      · obtain ⟨l, -, hl, -⟩ := hboth true
        exact ⟨l, hl⟩
    obtain ⟨f, hp, -⟩ := hsd.part hs.declares hl
    exact hh f hp
  have hkind : b.finish.kind id = .union [] := by
    unfold Model.parts at hparts
    split at hparts
    · rename_i members hm
      rw [hm, List.map_eq_nil_iff.1 hparts]
    · cases hparts
  obtain ⟨t, t', ht, hreq, hhooks⟩ := resolve_eq_ok.1 h.resolved
  obtain ⟨hnil, rfl⟩ : [] = r.hooks ∧ t' = r.table := by
    rw [hc] at hhooks
    simpa [internHooks] using hhooks
  have hreq' := internRequests_append (g := GenerateSpec.mk name e) hreq (by simp) hname
    (Table.intern_hollow hs.declares hh hsd)
  have hroots := resolveRoots_append h.advances.1 h.rooted (q := ⟨name, d⟩) hknown
  set root : Model.Root := ⟨name, id, r.table.oracle.typeName d⟩
  obtain ⟨p', hp'⟩ : ∃ p', b.finish.program (roots ++ [root]) _ = .ok p' :=
    Model.program_append h.written (Model.stmts_empty _ hkind)
  have h' : Compiles { doc with generate := doc.generate ++ [GenerateSpec.mk name e] }
      ⟨r.table, r.requests ++ [⟨name, d⟩], r.hooks⟩ (roots ++ [root]) b p' :=
    ⟨resolve_eq_ok.2 ⟨t, r.table, ht, hreq', hhooks⟩, h.unclashed, hroots, hp'⟩
  refine ⟨p', compile_eq_ok.2 ⟨_, _, _, h'⟩, fun ts v => ?_⟩
  have hmem : root ∈ roots ++ [root] := by simp
  have halt : b.finish.alternatives id = [] := by rw [Model.alternatives, hparts, List.filter_nil]
  have hcheck : b.finish.check id "value" v = .ok () := by
    rw [Model.check.eq_def, halt]
    rfl
  have hval : p'.validate ts name v = (b.finish.check id "value" v).map fun _ => v :=
    h'.validate hc hmem ts v
  rw [hval, hcheck]
  rfl

end

theorem exists_fresh (names : List String) : ∃ name, name ∉ names := by
  obtain ⟨name, hname⟩ := Infinite.exists_notMem_finset names.toFinset
  exact ⟨name, fun h => hname (List.mem_toFinset.2 h)⟩

/-- Validators of what values are checked against are sound exactly if none of it is hollow. -/
theorem sound_iff (doc : Document) (p : Program) (hc : doc.conversions = [])
    (hn : (Fields.names doc.types).Nodup) (h : doc.compile = .ok p) :
    (∀ gs, (∀ g ∈ gs, doc.Place g.type) → Sound { doc with generate := gs }) ↔
      ∀ e, doc.Place e → ¬ Hollow doc.types e := by
  constructor
  · intro hsound e he hh
    obtain ⟨r, roots, b, h⟩ := compile_eq_ok.1 h
    obtain ⟨name, hname⟩ := exists_fresh (doc.generate.map (·.name))
    obtain ⟨p', hp', haccepts⟩ :=
      h.accepts_hollow hc (resolve_stands hn h.resolved) he hh hname
    have hgs : ∀ g ∈ doc.generate ++ [GenerateSpec.mk name e], doc.Place g.type := by
      intro g hg
      rcases List.mem_append.1 hg with hg | hg
      · exact .root (List.mem_map_of_mem hg)
      · rw [List.mem_singleton.1 hg]
        exact he
    obtain ⟨-, hv⟩ := hsound _ hgs p' hp' ⟨name, e⟩ (by simp) .empty .undefined .undefined
      (haccepts _ _)
    exact hh.not_inhabits hv
  · intro hsolid gs hgs
    refine sound_of_solid hc hn fun e he => hsolid e ?_
    refine Reached.trans (fun e he => ?_) he
    obtain ⟨g, hg, rfl⟩ := List.mem_map.1 he
    exact hgs g hg

theorem sound_iff_trees : ∃ p, trees.compile = .ok p ∧
    ((∀ gs, (∀ g ∈ gs, trees.Place g.type) → Sound { trees with generate := gs }) ↔
      ∀ e, trees.Place e → ¬ Hollow trees.types e) := by
  obtain ⟨p, hp⟩ : ∃ p, trees.compile = .ok p := exists_of_isOk (by decide +kernel)
  exact ⟨p, hp, sound_iff trees p rfl (by decide) hp⟩

/-- A document that asks for a validator of the union without members. -/
def nothing : Document := { empty with generate := [⟨"parseE", .union []⟩] }

theorem hollow_nothing : Hollow nothing.types (.union []) := by
  intro f hp
  cases hp with
  | self hr hu =>
    cases hr
    cases hu
  | member hr hm =>
    cases hr
    cases hm

/-- The validator accepts one, which is of no type in the union. -/
theorem nothing_not_sound : nothing.conversions = [] ∧ ¬ nothing.Sound := by
  refine ⟨rfl, fun h => ?_⟩
  obtain ⟨p, hp⟩ : ∃ p, nothing.compile = .ok p := exists_of_isOk (by decide +kernel)
  have hone : (nothing.compile.toOption.bind fun p =>
      (p.validate .empty "parseE" (.number (.ofInt 1))).toOption).isSome := by decide +kernel
  rw [hp] at hone
  cases hv : p.validate .empty "parseE" (.number (.ofInt 1)) with
  | error e => simp [Except.toOption, hv] at hone
  | ok w =>
    obtain ⟨-, hone⟩ := h p hp _ (List.mem_singleton.2 rfl) _ _ _ hv
    exact hollow_nothing.not_inhabits hone

end Document

end Conform
