import Conform.Proofs.Document.Graph
import Conform.Proofs.Schema.Bodies

/-! The keys of what a document comes to: its declarations, its requests and its conversions. They
can be told from the document alone. -/

namespace Conform

namespace Table

variable {target : String → Option String} {K K' : TypeId → TypeKey} {t u : Table}
  {types : Declarations}

theorem Bodied.extends (h : Bodied types target K t) (ht : t.Tidy) (hx : t.Extends u)
    (hk : KeepsKeys t K u K') : Bodied types target K' u := by
  intro c hc ha d hd
  rw [hx.keeps.lookup] at hd
  have hlt := ht.names hd
  have hshape : u.shape d = t.shape d := by rw [shape, hx.entry d hlt, shape]
  rw [hshape]
  refine (h c hc ha d hd).congr fun x hxc => hk.key x ?_
  rw [shape_eq (Array.getElem?_eq_getElem hlt)] at hxc
  exact ht.children (Array.getElem?_eq_getElem hlt) x hxc

end Table

namespace Document

open Table

variable {target : String → Option String} {K : TypeId → TypeKey} {f : Owner → Nat} {t u : Table}

theorem internRequests_keyed {seen : List String} {gs : List GenerateSpec}
    {requests : List (Request TypeId)} (h : t.Keyed target K f)
    (hf : ∀ g ∈ gs, f (.requested g.name) = 0)
    (hr : internRequests t seen gs = .ok (requests, u)) :
    ∃ K' g, t.Extends u ∧ KeepsKeys t K u K' ∧ u.Keyed target K' g ∧
      (∀ o, (∀ n, o ≠ .requested n) → g o = f o) ∧
      List.Forall₂ (fun g q => q.name = g.name ∧ q.root < u.entries.size ∧
        K' q.root = g.type.key target (.requested g.name) 0) gs requests := by
  induction gs generalizing t K f seen requests with
  | nil =>
    cases hr
    exact ⟨K, f, .refl _, .refl _ K, h, fun _ _ => rfl, .nil⟩
  | cons g gs ih =>
    obtain ⟨-, d, t₁, rest, hd, hrest, rfl⟩ := internRequests_cons_eq_ok.1 hr
    obtain ⟨-, -, hfresh⟩ := internRequests_names hrest
    obtain ⟨K₁, hkeeps, hk, hlt, hkey⟩ := intern_keyed (.requested g.name) h hd
    obtain ⟨K', g', hx, hkeeps', hk', hg', hall⟩ := ih hk (fun g' hg' => by
      rw [Owner.count_of_ne]
      · exact hf g' (List.mem_cons_of_mem _ hg')
      · intro he
        exact hfresh g' hg' (by simp [Owner.requested.inj he])) hrest
    refine ⟨K', g', (intern_spec h.tidy hd).2.1.trans hx, hkeeps.trans hkeeps', hk', fun o ho => ?_,
      .cons ⟨rfl, Nat.lt_of_lt_of_le hlt hkeeps'.size, ?_⟩ hall⟩
    · rw [hg' o ho, Owner.count_of_ne (ho g.name)]
    · rw [hkeeps'.key d hlt, hkey, hf g List.mem_cons_self]

theorem internHooks_keyed {number : ConversionId} {cs : List ConversionSpec}
    {hooks : List (Hook TypeId)} (h : t.Keyed target K f)
    (hf : ∀ i ≥ number, f (.converted i) = 0)
    (hh : internHooks t number cs = .ok (hooks, u)) :
    ∃ K' g, t.Extends u ∧ KeepsKeys t K u K' ∧ u.Keyed target K' g ∧
      List.Forall₂ (fun c k => k.body = c.script ∧ k.result < u.entries.size ∧
        K' k.result = c.type.key target (.converted k.conversion) 0) cs hooks := by
  induction cs generalizing t K f number hooks with
  | nil =>
    cases hh
    exact ⟨K, f, .refl _, .refl _ K, h, .nil⟩
  | cons c cs ih =>
    obtain ⟨d, t₁, rest, hd, hrest, rfl⟩ := internHooks_cons_eq_ok.1 hh
    obtain ⟨K₁, hkeeps, hk, hlt, hkey⟩ := intern_keyed (.converted number) h hd
    obtain ⟨K', g', hx, hkeeps', hk', hall⟩ := ih hk (fun i hi => by
      rw [Owner.count_of_ne]
      · exact hf i (Nat.le_of_succ_le hi)
      · rintro ⟨⟩
        exact Nat.lt_irrefl _ hi) hrest
    refine ⟨K', g', (intern_spec h.tidy hd).2.1.trans hx, hkeeps.trans hkeeps', hk',
      .cons ⟨rfl, Nat.lt_of_lt_of_le hlt hkeeps'.size, ?_⟩ hall⟩
    rw [hkeeps'.key d hlt, hkey, hf number (Nat.le_refl _)]

/-- What the keys of a resolved document are. -/
structure Keyed (doc : Document) (r : Resolved) (target : String → Option String)
    (K : TypeId → TypeKey) : Prop where
  table : ∃ f, r.table.Keyed target K f
  refers : ∀ n m, target n = some m ↔ Refers doc.types n m
  bodied : Bodied doc.types target K r.table
  requests : List.Forall₂ (fun g q => q.name = g.name ∧ q.root < r.table.entries.size ∧
    K q.root = g.type.key target (.requested g.name) 0) doc.generate r.requests
  hooks : List.Forall₂ (fun c k => k.body = c.script ∧ k.result < r.table.entries.size ∧
    K k.result = c.type.key target (.converted k.conversion) 0) doc.conversions r.hooks

theorem resolve_keyed {doc : Document} {r : Resolved} (hn : (Fields.names doc.types).Nodup)
    (h : doc.resolve = .ok r) : ∃ target K, doc.Keyed r target K := by
  obtain ⟨t, t', ht, hreq, hhooks⟩ := resolve_eq_ok.1 h
  obtain ⟨target, K, f, hk, hrefers, hf, hbodied⟩ := ofDeclarations_keyed hn ht
  obtain ⟨K₁, f₁, hx₁, hkeeps₁, hk₁, hf₁, hrequests⟩ :=
    internRequests_keyed hk (fun g _ => hf _ (by simp)) hreq
  obtain ⟨K₂, f₂, hx₂, hkeeps₂, hk₂, hall⟩ :=
    internHooks_keyed hk₁ (fun i _ => by rw [hf₁ _ (by simp), hf _ (by simp)]) hhooks
  refine ⟨target, K₂, ⟨f₂, hk₂⟩, hrefers, ?_, ?_, hall⟩
  · exact (hbodied.extends hk.tidy hx₁ hkeeps₁).extends hk₁.tidy hx₂ hkeeps₂
  · exact hrequests.imp fun g q hq =>
      ⟨hq.1, Nat.lt_of_lt_of_le hq.2.1 hkeeps₂.size, (hkeeps₂.key _ hq.2.1).trans hq.2.2⟩

/-- The shape of an entry is told by its key, or by the body of the declaration of its key. -/
theorem Keyed.shape_cases {doc : Document} {r : Resolved} (h : doc.Keyed r target K)
    (hn : (Fields.names doc.types).Nodup) {d : TypeId} (hd : d < r.table.entries.size) :
    (∃ n e, K d = .declared n ∧ Fields.get? n doc.types = some e ∧
        (r.table.shape d).Keyed K (e.bodyKey target (.declared n))) ∨
      (∀ n, K d ≠ .declared n) ∧ (r.table.shape d).Keyed K (K d) := by
  obtain ⟨f, hk⟩ := h.table
  rcases hk.entry_cases hd with ⟨n, s, hs, hkd⟩ | ⟨s, hs, hsk⟩
  · have htarget := (hk.named hs).2
    obtain ⟨e, he, ha⟩ := ((h.refers n n).1 htarget).declared
    refine Or.inl ⟨n, e, hkd, he, ?_⟩
    have hlookup := hk.targets n
    rw [htarget, Option.map_some, Option.map_eq_some_iff] at hlookup
    obtain ⟨d', hd', hkey⟩ := hlookup
    obtain rfl := hk.injective (hk.tidy.names hd') hd (hkey.trans hkd.symm)
    exact h.bodied (n, e) ((Fields.get?_eq_some_iff hn).1 he) ha d' hd'
  · refine Or.inr ⟨fun n hkd => ?_, by rwa [shape_eq hs]⟩
    rw [hkd] at hsk
    cases hsk

end Document

end Conform
