import Conform.Proofs.Builder.Lockstep
import Conform.Proofs.Document.Keyed
import Conform.Proofs.Document.Literals
import Conform.Proofs.Document.Order
import Conform.Proofs.Document.Selection
import Conform.Proofs.Schema.Renumbering

/-! Neither the order of the declarations of a document nor declarations that it does not mention
matter to what it compiles to. Tables have other entries then, but entries of the same keys. -/

namespace Conform

namespace Document

/-- The names that the type expressions of a document mention. -/
def mentions (doc : Document) : List String :=
  fieldsNames doc.types ++ (doc.conversions.flatMap (·.type.names) ++
    doc.generate.flatMap (·.type.names))

/-- Whether a document has the declarations of another one in some order, among well-formed ones
of names that the other one does not mention. -/
structure Rearranges (doc doc' : Document) : Prop where
  rest : doc' = { doc with types := doc'.types }
  distinct : (Fields.names doc'.types).Nodup
  types : ∃ added, doc'.types.Perm (doc.types ++ added) ∧
    ∀ f ∈ added, Table.WellFormed doc'.types f ∧ f.1 ∉ doc.mentions

variable {doc doc' : Document}

theorem names_subset {fs : List (String × TypeExpr)} {f : String × TypeExpr} (hf : f ∈ fs) :
    f.2.names ⊆ fieldsNames fs := by
  induction fs with
  | nil => cases hf
  | cons g fs ih =>
    rcases List.mem_cons.1 hf with rfl | hf
    · exact List.subset_append_left _ _
    · exact List.subset_append_of_subset_right _ (ih hf)

theorem mentions_types {f : String × TypeExpr} (hf : f ∈ doc.types) : f.2.names ⊆ doc.mentions :=
  List.subset_append_of_subset_left _ (names_subset hf)

theorem mentions_conversion {c : ConversionSpec} (hc : c ∈ doc.conversions) :
    c.type.names ⊆ doc.mentions := fun _ hn =>
  List.mem_append_right _ (List.mem_append_left _ (List.mem_flatMap.2 ⟨c, hc, hn⟩))

theorem mentions_request {g : GenerateSpec} (hg : g ∈ doc.generate) :
    g.type.names ⊆ doc.mentions := fun _ hn =>
  List.mem_append_right _ (List.mem_append_right _ (List.mem_flatMap.2 ⟨g, hg, hn⟩))

namespace Rearranges

variable (h : doc.Rearranges doc')

include h

theorem nodup : (Fields.names doc.types).Nodup := by
  obtain ⟨added, hp, -⟩ := h.types
  have hn : (Fields.names (doc.types ++ added)).Nodup := (hp.map _).nodup_iff.1 h.distinct
  rw [Fields.names, List.map_append] at hn
  exact hn.of_append_left

theorem generate : doc'.generate = doc.generate := by rw [h.rest]

theorem conversions : doc'.conversions = doc.conversions := by rw [h.rest]

theorem literals_subset : doc.literals ⊆ doc'.literals := by
  obtain ⟨added, hp, -⟩ := h.types
  have htypes : doc.types ⊆ doc'.types := fun f hf => hp.mem_iff.2 (List.mem_append_left _ hf)
  rw [literals, literals, h.conversions, h.generate]
  exact List.append_subset.2 ⟨List.subset_append_of_subset_left _ (fieldsLiterals_subset htypes),
    List.subset_append_right _ _⟩

theorem get? {n : String} (hn : n ∈ doc.mentions ∨ n ∈ Fields.names doc.types) :
    Fields.get? n doc'.types = Fields.get? n doc.types := by
  obtain ⟨added, hp, hadded⟩ := h.types
  have hnew : ∀ e, (n, e) ∉ added := by
    intro e he
    rcases hn with hn | hn
    · exact (hadded _ he).2 hn
    · have hnodup : (Fields.names (doc.types ++ added)).Nodup := (hp.map _).nodup_iff.1 h.distinct
      rw [Fields.names, List.map_append, List.nodup_append] at hnodup
      exact hnodup.2.2 n hn n (List.mem_map_of_mem he) rfl
  refine Option.ext fun e => ?_
  rw [Fields.get?_eq_some_iff h.distinct, Fields.get?_eq_some_iff h.nodup, hp.mem_iff,
    List.mem_append]
  exact or_iff_left (hnew e)

theorem get?_of_names {e : TypeExpr} (he : e.names ⊆ doc.mentions) :
    ∀ n ∈ e.names, Fields.get? n doc'.types = Fields.get? n doc.types :=
  fun _ hn => h.get? (Or.inl (he hn))

theorem refers {n m : String} (hn : n ∈ doc.mentions ∨ n ∈ Fields.names doc.types) :
    Table.Refers doc'.types n m ↔ Table.Refers doc.types n m := by
  have hclosed : ∀ n m, Fields.get? n doc.types = some (.name m) → m ∈ doc.mentions := by
    intro n m hg
    have hmem := (Fields.get?_eq_some_iff h.nodup).1 hg
    exact mentions_types hmem (by simp [TypeExpr.names])
  constructor
  · exact Table.Refers.congr (fun n hn => (h.get? hn).symm)
      (fun n m hn hg => Or.inl (hclosed n m ((h.get? hn).symm.trans hg))) hn
  · exact Table.Refers.congr (fun n hn => h.get? hn) (fun n m _ hg => Or.inl (hclosed n m hg)) hn

theorem wellFormed {f : String × TypeExpr} (hf : f ∈ doc.types) :
    Table.WellFormed doc'.types f ↔ Table.WellFormed doc.types f := by
  unfold Table.WellFormed
  split_ifs
  · exact exists_congr fun m => h.refers (Or.inr (List.mem_map_of_mem hf))
  · exact TypeExpr.WellFormed.congr (h.get?_of_names (mentions_types hf))

theorem exists_table : (∃ t, doc.table = .ok t) ↔ ∃ t, doc'.table = .ok t := by
  obtain ⟨added, hp, hadded⟩ := h.types
  rw [Document.table, Document.table, Table.exists_ofDeclarations h.nodup,
    Table.exists_ofDeclarations h.distinct]
  constructor
  · intro hall f hf
    rcases List.mem_append.1 (hp.mem_iff.1 hf) with hf | hf
    · exact (h.wellFormed hf).2 (hall f hf)
    · exact (hadded f hf).1
  · exact fun hall f hf =>
      (h.wellFormed hf).1 (hall f (hp.mem_iff.2 (List.mem_append_left _ hf)))

theorem exists_resolve : (∃ r, doc.resolve = .ok r) ↔ ∃ r, doc'.resolve = .ok r := by
  have hinterns : ∀ {t t' e}, doc.table = .ok t → doc'.table = .ok t' → e.names ⊆ doc.mentions →
      (Interns t e ↔ Interns t' e) := by
    intro t t' e ht ht' he
    rw [Table.exists_intern_iff (Table.ofDeclarations_declares h.nodup ht).lists,
      Table.exists_intern_iff (Table.ofDeclarations_declares h.distinct ht').lists]
    exact (TypeExpr.WellFormed.congr (h.get?_of_names he)).symm
  rw [Document.exists_resolve, Document.exists_resolve, h.generate, h.conversions]
  constructor
  · rintro ⟨t, ht, hnodup, hg, hc⟩
    obtain ⟨t', ht'⟩ := h.exists_table.1 ⟨t, ht⟩
    exact ⟨t', ht', hnodup, fun g hmem => (hinterns ht ht' (mentions_request hmem)).1 (hg g hmem),
      fun c hmem => (hinterns ht ht' (mentions_conversion hmem)).1 (hc c hmem)⟩
  · rintro ⟨t', ht', hnodup, hg, hc⟩
    obtain ⟨t, ht⟩ := h.exists_table.2 ⟨t', ht'⟩
    exact ⟨t, ht, hnodup, fun g hmem => (hinterns ht ht' (mentions_request hmem)).2 (hg g hmem),
      fun c hmem => (hinterns ht ht' (mentions_conversion hmem)).2 (hc c hmem)⟩

variable {r r' : Resolved} {target target' : String → Option String} {K K' : TypeId → TypeKey}

theorem target_eq (hk : doc.Keyed r target K) (hk' : doc'.Keyed r' target' K') {n : String}
    (hn : n ∈ doc.mentions ∨ n ∈ Fields.names doc.types) : target' n = target n :=
  Option.ext fun m => (hk'.refers n m).trans ((h.refers hn).trans (hk.refers n m).symm)

theorem renumbers (hk : doc.Keyed r target K) (hk' : doc'.Keyed r' target' K') :
    Table.Renumbers target K r.table target' K' r'.table := by
  refine ⟨hk.table, hk'.table, ?_⟩
  rintro x y ⟨hx, hy, hxy⟩
  have hchildren : ∀ {target K} {t : Table} {d : TypeId}, (∃ f, t.Keyed target K f) →
      d < t.entries.size → ∀ c ∈ (t.shape d).children, c < t.entries.size := by
    rintro target K t d ⟨f, hf⟩ hd c hc
    rw [Table.shape_eq (Array.getElem?_eq_getElem hd)] at hc
    exact hf.tidy.children (Array.getElem?_eq_getElem hd) c hc
  have hlike : ∀ {κ : TypeKey}, (r.table.shape x).Keyed K κ → (r'.table.shape y).Keyed K' κ →
      Shape.Like (r.table.SameKey K r'.table K') (r.table.shape x) (r'.table.shape y) :=
    fun hs hs' => Table.like_of_keyed hs hs' (hchildren hk.table hx) (hchildren hk'.table hy)
  -- the key of a declaration says nothing of its body, which is that in both documents
  rcases hk.shape_cases h.nodup hx with ⟨n, e, hn, he, hs⟩ | ⟨hn, hs⟩ <;>
    rcases hk'.shape_cases h.distinct hy with ⟨m, e', hm, he', hs'⟩ | ⟨hm, hs'⟩
  · rw [hn, hm] at hxy
    obtain rfl := TypeKey.declared.inj hxy
    have hmem := (Fields.get?_eq_some_iff h.nodup).1 he
    rw [h.get? (Or.inr (List.mem_map_of_mem hmem))] at he'
    obtain rfl := Option.some.inj (he.symm.trans he')
    rw [TypeExpr.bodyKey_congr fun n hn =>
      h.target_eq hk hk' (Or.inl (mentions_types hmem hn))] at hs'
    exact hlike hs hs'
  · exact absurd (hxy.symm.trans hn) (hm n)
  · exact absurd (hxy.trans hm) (hn m)
  · rw [← hxy] at hs'
    exact hlike hs hs'

theorem requests (hk : doc.Keyed r target K) (hk' : doc'.Keyed r' target' K') :
    List.Forall₂ (fun q q' => q.name = q'.name ∧
      r.table.SameKey K r'.table K' q.root q'.root) r.requests r'.requests := by
  have hrequests := hk'.requests
  rw [h.generate] at hrequests
  have hall : ∀ g ∈ doc.generate, g.type.key target' (.requested g.name) 0 =
      g.type.key target (.requested g.name) 0 := fun g hg =>
    TypeExpr.key_congr fun n hn => h.target_eq hk hk' (Or.inl (mentions_request hg hn))
  refine (forall₂_span hk.requests ((List.forall₂_and_left _ _).2 ⟨hall, hrequests⟩)).imp ?_
  rintro q q' ⟨g, ⟨hname, hlt, hkey⟩, hg, hname', hlt', hkey'⟩
  exact ⟨hname.trans hname'.symm, hlt, hlt', by rw [hkey, hkey', hg]⟩

theorem hooks (hr : doc.resolve = .ok r) (hr' : doc'.resolve = .ok r')
    (hk : doc.Keyed r target K) (hk' : doc'.Keyed r' target' K') :
    List.Forall₂ (fun k k' => k.conversion = k'.conversion ∧ k.body = k'.body ∧
      r.table.SameKey K r'.table K' k.result k'.result) r.hooks r'.hooks := by
  have hhooks := hk'.hooks
  rw [h.conversions] at hhooks
  have hnumbers : List.Forall₂ (fun k k' => k.conversion = k'.conversion) r.hooks r'.hooks := by
    refine forall₂_of_map ?_
    rw [conversions_of_resolve hr, conversions_of_resolve hr', h.conversions]
  have hall : ∀ c ∈ doc.conversions, ∀ owner, c.type.key target' owner 0 =
      c.type.key target owner 0 := fun c hc owner =>
    TypeExpr.key_congr fun n hn => h.target_eq hk hk' (Or.inl (mentions_conversion hc hn))
  refine (List.Forall₂.mp (fun _ _ hn hs => And.intro hn hs) hnumbers
    (forall₂_span hk.hooks ((List.forall₂_and_left _ _).2 ⟨hall, hhooks⟩))).imp ?_
  rintro k k' ⟨hn, c, ⟨hbody, hlt, hkey⟩, hc, hbody', hlt', hkey'⟩
  exact ⟨hn, hbody.trans hbody'.symm, hlt, hlt', by rw [hkey, hkey', hc, hn]⟩

theorem mirrors (hr : doc.resolve = .ok r) (hr' : doc'.resolve = .ok r')
    (hk : doc.Keyed r target K) (hk' : doc'.Keyed r' target' K') :
    Mirrors r.table.oracle r.hooks r'.table.oracle r'.hooks (r.table.SameKey K r'.table K') :=
  (h.renumbers hk hk').mirrors ((h.hooks hr hr' hk hk').imp fun _ _ hh => ⟨hh.1, hh.2.2⟩)

theorem compilable (hr : doc.resolve = .ok r) (hr' : doc'.resolve = .ok r') :
    ((r.hooks.map (·.result)).Nodup ∧
        Compilable r.table.oracle r.hooks (r.requests.map (·.root))) ↔
      (r'.hooks.map (·.result)).Nodup ∧
        Compilable r'.table.oracle r'.hooks (r'.requests.map (·.root)) := by
  obtain ⟨target, K, hk⟩ := resolve_keyed h.nodup hr
  obtain ⟨target', K', hk'⟩ := resolve_keyed h.distinct hr'
  have hm := (h.mirrors hr hr' hk hk').toMatches
  have hunique : Relator.BiUnique (r.table.SameKey K r'.table K') :=
    ⟨fun _ _ _ hx hx' => hm.right hx hx', fun _ _ _ hy hy' => hm.left hy hy'⟩
  have hresults : List.Forall₂ (r.table.SameKey K r'.table K') (r.hooks.map (·.result))
      (r'.hooks.map (·.result)) := by
    rw [List.forall₂_map_left_iff, List.forall₂_map_right_iff]
    exact (h.hooks hr hr' hk hk').imp fun _ _ hh => hh.2.2
  have hroots : List.Forall₂ (r.table.SameKey K r'.table K') (r.requests.map (·.root))
      (r'.requests.map (·.root)) := by
    rw [List.forall₂_map_left_iff, List.forall₂_map_right_iff]
    exact (h.requests hk hk').imp fun _ _ hq => hq.2
  exact and_congr (List.rel_nodup hunique hresults)
    ⟨.of_matches hm hroots, .of_matches hm.symm hroots.flip⟩

end Rearranges

/-- A document compiles exactly if it does with its declarations in another order, among others
that it does not mention, and then to the same program. Zeros of both signs are one literal, with
the sign of the one that is read first: it may be another one, but nothing that a program is for
depends on it. -/
theorem compile_rearranged (doc doc' : Document) (h : doc.Rearranges doc') :
    ((∃ p, doc.compile = .ok p) ↔ ∃ p, doc'.compile = .ok p) ∧
      ∀ p p', doc.compile = .ok p → doc'.compile = .ok p' → p.normal = p'.normal ∧
        ((∀ l ∈ doc'.literals, l.normal = l) → p = p') ∧
        (∀ imports, TypeScript.items imports p = TypeScript.items imports p') ∧
        ∀ ts name v, p.validate ts name v = p'.validate ts name v := by
  constructor
  · rw [exists_compile doc h.nodup, exists_compile doc' h.distinct]
    constructor
    · rintro ⟨r, hr, hc⟩
      obtain ⟨r', hr'⟩ := h.exists_resolve.1 ⟨r, hr⟩
      exact ⟨r', hr', (h.compilable hr hr').1 hc⟩
    · rintro ⟨r', hr', hc⟩
      obtain ⟨r, hr⟩ := h.exists_resolve.2 ⟨r', hr'⟩
      exact ⟨r, hr, (h.compilable hr hr').2 hc⟩
  · intro p p' hc hc'
    obtain ⟨r, hr, hp⟩ := bind_eq_ok.1 hc
    obtain ⟨r', hr', hp'⟩ := bind_eq_ok.1 hc'
    have hr := mapError_eq_ok.1 hr
    have hr' := mapError_eq_ok.1 hr'
    obtain ⟨target, K, hk⟩ := resolve_keyed h.nodup hr
    obtain ⟨target', K', hk'⟩ := resolve_keyed h.distinct hr'
    have hp : p.normal = p'.normal :=
      program_eq_of_mirrors (h.mirrors hr hr' hk hk') (h.renumbers hk hk').typeName
        (h.requests hk hk') (h.hooks hr hr' hk hk') (mapError_eq_ok.1 hp) (mapError_eq_ok.1 hp')
    refine ⟨hp, fun hl => ?_, fun imports => ?_, fun ts name v => ?_⟩
    · rwa [compile_normal (fun l hmem => hl l (h.literals_subset hmem)) hc,
        compile_normal hl hc'] at hp
    · rw [← TypeScript.items_normal, hp, TypeScript.items_normal]
    · rw [← p.validate_normal, hp, p'.validate_normal]

/-- Pairs of items, which have an alias and may be pairs themselves. -/
def pairs : Document :=
  { empty with
    types := [("Pair", .record [("left", .name "Item"), ("right", .array (.name "Item"))]),
      ("Item", .name "Entry"),
      ("Entry", .union [.name "string", .record [("pair", .name "Pair"), ("note", .name "Item")]])]
    generate := [⟨"parsePair", .name "Pair"⟩] }

/-- The same with its declarations the other way round, after one that is not used. -/
def pairsReversed : Document :=
  { pairs with
    types := ("Spare", .array (.union [.name "Item", .record [], .name "null"])) ::
      pairs.types.reverse }

/-- Declarations the other way round, after one that is not used, come to the same. -/
theorem compile_rearranged_pairs : pairs.Rearranges pairsReversed ∧
    ∃ p, pairs.compile = .ok p ∧ pairsReversed.compile = .ok p := by
  have h : pairs.Rearranges pairsReversed := by
    refine ⟨rfl, by decide, [("Spare", .array (.union [.name "Item", .record [], .name "null"]))],
      ?_, ?_⟩
    · exact (List.perm_append_singleton _ _).symm.trans
        ((List.reverse_perm pairs.types).append_right _)
    · rintro f hf
      obtain rfl := List.mem_singleton.1 hf
      refine ⟨⟨Or.inl (by decide), trivial, Or.inr (by decide), trivial⟩, by decide⟩
  obtain ⟨p, hp⟩ : ∃ p, pairs.compile = .ok p := exists_of_isOk (by decide +kernel)
  obtain ⟨p', hp'⟩ := (compile_rearranged pairs pairsReversed h).1.1 ⟨p, hp⟩
  obtain ⟨-, heq, -⟩ := (compile_rearranged pairs pairsReversed h).2 p p' hp hp'
  obtain rfl := heq (by decide)
  exact ⟨h, p, hp, hp'⟩

end Document

end Conform
