import Conform.Proofs.Document.Graph
import Conform.Proofs.Schema.Reading
import Conform.Proofs.Schema.Shapes

/-! The table that a document comes to: it declares the types of the document, and what the
document asks for and converts is spelled by entries of it. -/

namespace Conform.Document

variable {t t' : Table}

theorem internRequests_spec {seen : List String} {gs : List GenerateSpec}
    {requests : List (Request TypeId)} (ht : t.Tidy)
    (h : internRequests t seen gs = .ok (requests, t')) :
    t'.Tidy ∧ t.Extends t' ∧
      List.Forall₂ (fun g r => r.name = g.name ∧ t'.Spells g.type r.root) gs requests := by
  induction gs generalizing t seen requests with
  | nil =>
    cases h
    exact ⟨ht, .refl _, .nil⟩
  | cons g gs ih =>
    obtain ⟨-, d, t₁, rest, hd, hrest, rfl⟩ := internRequests_cons_eq_ok.1 h
    obtain ⟨ht₁, hx, hs⟩ := Table.intern_spec ht hd
    obtain ⟨ht', hx', hall⟩ := ih ht₁ hrest
    exact ⟨ht', hx.trans hx', .cons ⟨rfl, hs.mono hx'.keeps⟩ hall⟩

theorem internHooks_spec {number : ConversionId} {cs : List ConversionSpec}
    {hooks : List (Hook TypeId)} (ht : t.Tidy)
    (h : internHooks t number cs = .ok (hooks, t')) :
    t'.Tidy ∧ t.Extends t' ∧ List.Forall₂ (fun c k => t'.Spells c.type k.result) cs hooks := by
  induction cs generalizing t number hooks with
  | nil =>
    cases h
    exact ⟨ht, .refl _, .nil⟩
  | cons c cs ih =>
    obtain ⟨d, t₁, rest, hd, hrest, rfl⟩ := internHooks_cons_eq_ok.1 h
    obtain ⟨ht₁, hx, hs⟩ := Table.intern_spec ht hd
    obtain ⟨ht', hx', hall⟩ := ih ht₁ hrest
    exact ⟨ht', hx.trans hx', .cons (hs.mono hx'.keeps) hall⟩

/-- What the entries of a resolved document stand for. -/
structure Stands (doc : Document) (r : Resolved) : Prop where
  declares : Table.Declares doc.types r.table
  requests : List.Forall₂ (fun g q => q.name = g.name ∧ r.table.Spells g.type q.root)
    doc.generate r.requests
  hooks : List.Forall₂ (fun c k => r.table.Spells c.type k.result) doc.conversions r.hooks

theorem resolve_stands {doc : Document} {r : Resolved} (hn : (Fields.names doc.types).Nodup)
    (h : doc.resolve = .ok r) : doc.Stands r := by
  obtain ⟨t, t', ht, hreq, hhooks⟩ := resolve_eq_ok.1 h
  have hdec := Table.ofDeclarations_declares hn ht
  obtain ⟨ht', hx, hall⟩ := internRequests_spec hdec.tidy hreq
  obtain ⟨htidy, hx', hhall⟩ := internHooks_spec ht' hhooks
  exact ⟨hdec.extends htidy (hx.trans hx'),
    List.Forall₂.imp (fun _ _ h => ⟨h.1, h.2.mono hx'.keeps⟩) hall, hhall⟩

/-! ### Shapes -/

variable {P : TypeExpr → Prop} {Q : Shape → Prop}

theorem internRequests_all {seen : List String} {gs : List GenerateSpec}
    {requests : List (Request TypeId)} (hP : Table.Gives P Q) (ht : t.All Q)
    (hg : ∀ g ∈ gs, P g.type) (h : internRequests t seen gs = .ok (requests, t')) : t'.All Q := by
  induction gs generalizing t seen requests with
  | nil =>
    cases h
    exact ht
  | cons g gs ih =>
    obtain ⟨-, d, t₁, rest, hi, hrest, -⟩ := internRequests_cons_eq_ok.1 h
    obtain ⟨hhead, htail⟩ := List.forall_mem_cons.1 hg
    exact ih (hP.intern ht hhead hi) htail hrest

theorem internHooks_all {number : ConversionId} {cs : List ConversionSpec}
    {hooks : List (Hook TypeId)} (hP : Table.Gives P Q) (ht : t.All Q)
    (hc : ∀ c ∈ cs, P c.type) (h : internHooks t number cs = .ok (hooks, t')) : t'.All Q := by
  induction cs generalizing t number hooks with
  | nil =>
    cases h
    exact ht
  | cons c cs ih =>
    obtain ⟨d, t₁, rest, hi, hrest, -⟩ := internHooks_cons_eq_ok.1 h
    obtain ⟨hhead, htail⟩ := List.forall_mem_cons.1 hc
    exact ih (hP.intern ht hhead hi) htail hrest

/-- What holds of the shapes of all expressions of a document holds of its table. -/
theorem resolve_all {doc : Document} {r : Resolved} (hP : Table.Gives P Q)
    (htypes : ∀ f ∈ doc.types, P f.2) (hconversions : ∀ c ∈ doc.conversions, P c.type)
    (hgenerate : ∀ g ∈ doc.generate, P g.type) (h : doc.resolve = .ok r) : r.table.All Q := by
  obtain ⟨t, t', ht, hreq, hhooks⟩ := resolve_eq_ok.1 h
  exact internHooks_all hP (internRequests_all hP (hP.ofDeclarations htypes ht) hgenerate hreq)
    hconversions hhooks

end Conform.Document
