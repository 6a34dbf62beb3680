import Conform.Proofs.Document.Entries
import Conform.Proofs.Schema.Embedding

/-! What a document asks for has entries exactly if the names of its validators differ and every
expression has one by itself. Each request has the entries that it has where it is the only one,
under other numbers. -/

namespace Conform.Document

variable {t t' u u' : Table} {f : TypeId → TypeId}

/-- Whether an expression has an entry. -/
def Interns (t : Table) (e : TypeExpr) : Prop := ∃ d u, t.intern e = (.ok d, u)

theorem interns_congr {e : TypeExpr} (hn : t'.names = t.names) : Interns t' e ↔ Interns t e := by
  constructor
  · rintro ⟨d, u, h⟩
    obtain ⟨d', u', h', -⟩ := Table.exists_intern hn.symm h
    exact ⟨d', u', h'⟩
  · rintro ⟨d, u, h⟩
    obtain ⟨d', u', h', -⟩ := Table.exists_intern hn h
    exact ⟨d', u', h'⟩

theorem names_of_intern {e : TypeExpr} {d : TypeId} (h : t.intern e = (.ok d, u)) :
    u.names = t.names := by
  obtain ⟨d', u', h', hn⟩ := Table.exists_intern rfl h
  rw [h] at h'
  rw [(Prod.mk.inj h').2, hn]

theorem names_of_internRequests {seen : List String} {gs : List GenerateSpec}
    {requests : List (Request TypeId)} (h : internRequests t seen gs = .ok (requests, u)) :
    u.names = t.names := by
  induction gs generalizing t seen requests with
  | nil =>
    cases h
    rfl
  | cons g gs ih =>
    obtain ⟨-, d, t₁, rest, hd, hrest, -⟩ := internRequests_cons_eq_ok.1 h
    exact (ih hrest).trans (names_of_intern hd)

theorem exists_internRequests {seen : List String} {gs : List GenerateSpec} :
    (∃ requests u, internRequests t seen gs = .ok (requests, u)) ↔
      (gs.map (·.name)).Nodup ∧ ∀ g ∈ gs, g.name ∉ seen ∧ Interns t g.type := by
  induction gs generalizing t seen with
  | nil => simp [internRequests]
  | cons g gs ih =>
    rw [List.map_cons, List.nodup_cons, List.forall_mem_cons]
    constructor
    · rintro ⟨requests, u, h⟩
      obtain ⟨hseen, d, t₁, rest, hd, hrest, -⟩ := internRequests_cons_eq_ok.1 h
      obtain ⟨hnodup, hall⟩ := ih.1 ⟨rest, u, hrest⟩
      refine ⟨⟨fun hmem => ?_, hnodup⟩, ⟨hseen, d, t₁, hd⟩, fun g' hg' => ?_⟩
      · obtain ⟨g', hg', he⟩ := List.mem_map.1 hmem
        exact (hall g' hg').1 (by simp [he])
      · obtain ⟨hfresh, hi⟩ := hall g' hg'
        exact ⟨fun hmem => hfresh (List.mem_cons_of_mem _ hmem),
          (interns_congr (names_of_intern hd)).1 hi⟩
    · rintro ⟨⟨hfresh, hnodup⟩, ⟨hseen, d, t₁, hd⟩, hall⟩
      have hrest : ∀ g' ∈ gs, g'.name ∉ g.name :: seen ∧ Interns t₁ g'.type := by
        intro g' hg'
        refine ⟨?_, (interns_congr (names_of_intern hd)).2 (hall g' hg').2⟩
        rw [List.mem_cons, not_or]
        exact ⟨fun he => hfresh (he ▸ List.mem_map_of_mem hg'), (hall g' hg').1⟩
      obtain ⟨rest, u, hrest⟩ : ∃ rest u, internRequests t₁ (g.name :: seen) gs = .ok (rest, u) :=
        ih.2 ⟨hnodup, hrest⟩
      exact ⟨_, u, internRequests_cons_eq_ok.2 ⟨hseen, d, t₁, rest, hd, hrest, rfl⟩⟩

theorem exists_internHooks {number : ConversionId} {cs : List ConversionSpec} :
    (∃ hooks u, internHooks t number cs = .ok (hooks, u)) ↔ ∀ c ∈ cs, Interns t c.type := by
  induction cs generalizing t number with
  | nil => simp [internHooks]
  | cons c cs ih =>
    rw [List.forall_mem_cons]
    constructor
    · rintro ⟨hooks, u, h⟩
      obtain ⟨d, t₁, rest, hd, hrest, -⟩ := internHooks_cons_eq_ok.1 h
      refine ⟨⟨d, t₁, hd⟩, fun c' hc' => ?_⟩
      exact (interns_congr (names_of_intern hd)).1 (ih.1 ⟨rest, u, hrest⟩ c' hc')
    · rintro ⟨⟨d, t₁, hd⟩, hall⟩
      obtain ⟨rest, u, hrest⟩ : ∃ rest u, internHooks t₁ (number + 1) cs = .ok (rest, u) :=
        ih.2 fun c' hc' => (interns_congr (names_of_intern hd)).2 (hall c' hc')
      exact ⟨_, u, internHooks_cons_eq_ok.2 ⟨d, t₁, rest, hd, hrest, rfl⟩⟩

/-- A document has entries exactly if its validators have different names and all that it
mentions has one. -/
theorem exists_resolve {doc : Document} : (∃ r, doc.resolve = .ok r) ↔
    ∃ t, doc.table = .ok t ∧ (doc.generate.map (·.name)).Nodup ∧
      (∀ g ∈ doc.generate, Interns t g.type) ∧ ∀ c ∈ doc.conversions, Interns t c.type := by
  constructor
  · rintro ⟨r, h⟩
    obtain ⟨t, t', ht, hreq, hhooks⟩ := resolve_eq_ok.1 h
    obtain ⟨hnodup, hall⟩ := exists_internRequests.1 ⟨_, _, hreq⟩
    have hconv := exists_internHooks.1 ⟨_, _, hhooks⟩
    exact ⟨t, ht, hnodup, fun g hg => (hall g hg).2, fun c hc =>
      (interns_congr (names_of_internRequests hreq)).1 (hconv c hc)⟩
  · rintro ⟨t, ht, hnodup, hall, hconv⟩
    obtain ⟨requests, t', hreq⟩ : ∃ requests t', internRequests t [] doc.generate =
        .ok (requests, t') := exists_internRequests.2 ⟨hnodup, fun g hg => ⟨by simp, hall g hg⟩⟩
    obtain ⟨hooks, t'', hhooks⟩ : ∃ hooks t'', internHooks t' 1 doc.conversions =
        .ok (hooks, t'') := exists_internHooks.2 fun c hc =>
      (interns_congr (names_of_internRequests hreq)).2 (hconv c hc)
    exact ⟨⟨t'', requests, hooks⟩, resolve_eq_ok.2 ⟨t, t', ht, hreq, hhooks⟩⟩

theorem internRequests_embeds {t₀ : Table} {seen : List String} {gs : List GenerateSpec}
    {requests : List (Request TypeId)} (ht₀ : t₀.Tidy) (ht : t.Tidy) (h : t₀.Embeds id t)
    (hr : internRequests t seen gs = .ok (requests, u)) :
    List.Forall₂ (fun g q => ∀ {d v}, t₀.intern g.type = (.ok d, v) →
      ∃ f, v.Embeds f u ∧ q.root = f d) gs requests := by
  induction gs generalizing t seen requests with
  | nil =>
    cases hr
    exact .nil
  | cons g gs ih =>
    obtain ⟨-, d, t₁, rest, hd, hrest, rfl⟩ := internRequests_cons_eq_ok.1 hr
    obtain ⟨ht₁, hx, -⟩ := Table.intern_spec ht hd
    obtain ⟨-, hx', -⟩ := internRequests_spec ht₁ hrest
    refine .cons (fun {d₀ v} hd₀ => ?_) (ih ht₁ (h.grow hx) hrest)
    obtain ⟨f, -, hf, hroot⟩ := Table.intern_embeds ht₀ ht h hd₀ hd
    exact ⟨f, hf.grow hx', hroot⟩

theorem internHooks_embeds {number : ConversionId} {cs : List ConversionSpec}
    {hooks hooks' : List (Hook TypeId)} (ht : t.Tidy) (ht' : t'.Tidy) (h : t.Embeds f t')
    (hh : internHooks t number cs = .ok (hooks, u))
    (hh' : internHooks t' number cs = .ok (hooks', u')) :
    ∃ g, (∀ c < t.entries.size, g c = f c) ∧ u.Embeds g u' ∧
      hooks'.map (·.result) = (hooks.map (·.result)).map g := by
  induction cs generalizing t t' f number hooks hooks' with
  | nil =>
    cases hh
    cases hh'
    exact ⟨f, fun _ _ => rfl, h, rfl⟩
  | cons c cs ih =>
    obtain ⟨d, t₁, rest, hd, hrest, rfl⟩ := internHooks_cons_eq_ok.1 hh
    obtain ⟨d', t₁', rest', hd', hrest', rfl⟩ := internHooks_cons_eq_ok.1 hh'
    obtain ⟨ht₁, hx, hs⟩ := Table.intern_spec ht hd
    obtain ⟨ht₁', -⟩ := Table.intern_spec ht' hd'
    obtain ⟨g, hold, hg, rfl⟩ := Table.intern_embeds ht ht' h hd hd'
    obtain ⟨g', hold', hg', hresults⟩ := ih ht₁ ht₁' hg hrest hrest'
    refine ⟨g', fun c hc => ?_, hg', ?_⟩
    · exact (hold' c (Nat.lt_of_lt_of_le hc hx.size)).trans (hold c hc)
    · rw [List.map_cons, List.map_cons, List.map_cons, hresults, hold' d (hs.lt ht₁)]

/-- Each request of a document has the entries that it has as the only one, and the hooks are of
the same types then. -/
theorem resolve_embeds {doc : Document} {r : Resolved} (hn : (Fields.names doc.types).Nodup)
    (hr : doc.resolve = .ok r) :
    List.Forall₂ (fun g q => ∀ {s}, Document.resolve { doc with generate := [g] } = .ok s →
      ∃ f d, s.requests.map (·.root) = [d] ∧ q.root = f d ∧ s.table.Embeds f r.table ∧
        r.hooks.map (·.result) = (s.hooks.map (·.result)).map f) doc.generate r.requests := by
  obtain ⟨t, t', ht, hreq, hhooks⟩ := resolve_eq_ok.1 hr
  have htidy := (Table.ofDeclarations_declares hn ht).tidy
  obtain ⟨ht', -⟩ := internRequests_spec htidy hreq
  refine (internRequests_embeds htidy htidy (Table.embeds_id t) hreq).imp fun g q h => ?_
  intro s hs
  obtain ⟨t₀, t₁, ht₀, hone, hhooks'⟩ := resolve_eq_ok.1 hs
  obtain rfl := Except.ok.inj (ht.symm.trans ht₀)
  obtain ⟨-, d, v, rest, hd, hnil, hrest⟩ := internRequests_cons_eq_ok.1 hone
  cases hnil
  obtain ⟨hv, -, hspells⟩ := Table.intern_spec htidy hd
  obtain ⟨f, hf, hroot⟩ := h hd
  obtain ⟨g', hold, hg', hresults⟩ := internHooks_embeds hv ht' hf hhooks' hhooks
  refine ⟨g', d, by rw [hrest]; rfl, ?_, hg', hresults⟩
  rw [hroot, hold d (hspells.lt hv)]

end Conform.Document
