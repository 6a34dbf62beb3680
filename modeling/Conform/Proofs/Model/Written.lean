import Mathlib.Data.List.Forall2
import Conform.Proofs.Model.Alternatives

/-! What is written for a node: one branch for each test among its parts, in order, and the
conversion among them as what takes the rest. Members of unions have to be no unions. -/

namespace Conform

namespace Model

/-- Whether no union has a union as a member. -/
def Flat (m : Model) : Prop :=
  ∀ id members, m.kind id = .union members → ∀ x ∈ members, (m.kind x).isUnion = false

/-- The loop around the statements for the items of an array, if there are any. -/
def loop (site : Site) (body : List Stmt) : List Stmt :=
  if body.isEmpty then [] else [.forEach site.place site.depth body]

def HasBody (m : Model) (site : Site) (b : Branch) : NodeKind → Prop
  | .array (some element) => ∃ bound active items,
      m.extend bound active site.item .empty element = .ok items ∧
        b.body = loop site (items.toStmts site.item.place site.item.path)
  | .record record _ => b.body = [.call record site.place site.path.folded]
  | _ => b.body = []

/-- Whether a branch is what is written for a kind at a site. -/
structure IsBranch (m : Model) (site : Site) (k : NodeKind) (b : Branch) : Prop where
  label : b.label = k.label
  test : b.test = k.test site.place
  body : m.HasBody site b k

/-- How parts of a node change a chain. -/
structure Extends (m : Model) (site : Site) (ks : List NodeKind) (chain chain' : Chain) :
    Prop where
  branches : ∃ bs, chain'.branches = chain.branches ++ bs ∧
    List.Forall₂ (m.IsBranch site) (ks.filter (·.isTest)) bs
  conversion : chain'.conversion = chain.conversion.or (ks.findSome? (·.conversion?))

section

variable {m : Model} {site : Site} {chain chain' : Chain}

theorem Extends.nil : m.Extends site [] chain chain := ⟨⟨[], by simp, .nil⟩, by simp⟩

theorem Extends.cons {k : NodeKind} {ks : List NodeKind} {chain'' : Chain}
    (h : m.Extends site [k] chain chain') (h' : m.Extends site ks chain' chain'') :
    m.Extends site (k :: ks) chain chain'' := by
  obtain ⟨⟨bs, hbs, hk⟩, hc⟩ := h
  obtain ⟨⟨cs, hcs, hks⟩, hc'⟩ := h'
  refine ⟨⟨bs ++ cs, by rw [hcs, hbs, List.append_assoc], ?_⟩, ?_⟩
  · rw [← List.singleton_append, List.filter_append]
    exact List.rel_append hk hks
  · rw [hc', hc, show k :: ks = [k] ++ ks from rfl, List.findSome?_append, Option.or_assoc]

theorem hasBody_leaf {b : Branch} {k : NodeKind} (ha : ∀ element, k ≠ .array (some element))
    (hr : ∀ record members, k ≠ .record record members) : m.HasBody site b k ↔ b.body = [] := by
  cases k with
  | array element =>
    cases element with
    | none => exact Iff.rfl
    | some element => exact absurd rfl (ha element)
  | record record members => exact absurd rfl (hr record members)
  | _ => exact Iff.rfl

theorem Extends.add {k : NodeKind} {body : List Stmt} (hk : k.isTest)
    (hb : m.HasBody site (.mk k.label (k.test site.place) body) k) :
    m.Extends site [k] chain (chain.add k.label (k.test site.place) body) := by
  refine ⟨⟨[.mk k.label (k.test site.place) body], rfl, ?_⟩, ?_⟩
  · simpa [hk] using IsBranch.mk rfl rfl hb
  · cases k <;> simp_all [NodeKind.isTest, NodeKind.conversion?, Chain.add]

theorem kind_of_node? {id : NodeId} {node : Node} (h : m.node? id = some node) :
    m.kind id = node.kind := by simp [kind, h]

/-- What writing a node into a chain comes to, by the kind of the node. -/
inductive Extended (m : Model) (bound : Nat) (active : List NodeId) (site : Site) (chain : Chain)
    (id : NodeId) : Chain → Prop
  | any : m.kind id = .any → Extended m bound active site chain id chain
  | leaf {k : NodeKind} : m.kind id = k → k.isTest → (∀ element, k ≠ .array element) →
      (∀ record members, k ≠ .record record members) →
      Extended m bound active site chain id (chain.add k.label (k.test site.place) [])
  | record {record : RecordId} {members : List (String × NodeId)} :
      m.kind id = .record record members → Extended m bound active site chain id
        (chain.add "Object" (.isObject site.place) [.call record site.place site.path.folded])
  | array {element : NodeId} {items : Chain} : m.kind id = .array (some element) →
      m.extend bound (id :: active) site.item .empty element = .ok items →
      Extended m bound active site chain id (chain.add "Array" (.isArray site.place)
        (loop site (items.toStmts site.item.place site.item.path)))
  | union {members : List NodeId} {chain' : Chain} : m.kind id = .union members →
      members.foldlM (fun chain x => m.extend bound (id :: active) site chain x) chain =
        .ok chain' → Extended m bound active site chain id chain'
  | conversion {n : ConversionId} : m.kind id = .conversion n →
      (∀ other, chain.conversion = some other → other = n) →
      Extended m bound active site chain id { chain with conversion := some n }

theorem extend_cases {bound : Nat} {active : List NodeId} {id : NodeId}
    (h : m.extend (bound + 1) active site chain id = .ok chain') :
    m.Extended bound active site chain id chain' := by
  rw [extend] at h
  cases hn : m.node? id with
  | none =>
    obtain rfl : chain = chain' := by simpa [hn] using h
    exact .any (by simp [kind, hn])
  | some node =>
    have hk := kind_of_node? hn
    simp only [hn] at h
    cases hkind : node.kind with
    | any =>
      obtain rfl : chain = chain' := by simpa [hkind] using h
      exact .any (hk.trans hkind)
    | array element =>
      cases element with
      | none => simp [hkind] at h
      | some element =>
        simp only [hkind] at h
        split_ifs at h
        obtain ⟨items, hi, h⟩ := bind_eq_ok.1 h
        obtain rfl := Except.ok.inj h
        exact .array (hk.trans hkind) hi
    | union members =>
      simp only [hkind] at h
      split_ifs at h
      exact .union (hk.trans hkind) h
    | record record members =>
      simp only [hkind] at h
      obtain rfl := Except.ok.inj h
      exact .record (hk.trans hkind)
    | conversion n =>
      simp only [hkind] at h
      cases hc : chain.conversion with
      | none =>
        simp only [hc] at h
        obtain rfl := Except.ok.inj h
        exact .conversion (hk.trans hkind) (by simp [hc])
      | some other =>
        simp only [hc] at h
        split_ifs at h with he
        obtain rfl := Except.ok.inj h
        subst he
        have hsame : { chain with conversion := some other } = chain := by rw [← hc]
        rw [← hsame]
        exact .conversion (hk.trans hkind) (by simp)
    | _ =>
      simp only [hkind] at h
      obtain rfl := Except.ok.inj h
      exact .leaf (hk.trans hkind) rfl (by simp) (by simp)

theorem extend_part {bound : Nat} {active : List NodeId} {id : NodeId}
    (hk : (m.kind id).isUnion = false) (h : m.extend bound active site chain id = .ok chain') :
    m.Extends site [m.kind id] chain chain' := by
  cases bound with
  | zero => simp [extend] at h
  | succ bound =>
    cases extend_cases h with
    | any ha =>
      rw [ha]
      exact ⟨⟨[], by simp, by simp [NodeKind.isTest]⟩, by simp [NodeKind.conversion?]⟩
    | @leaf k hkind ht ha hr =>
      rw [hkind]
      exact .add ht ((hasBody_leaf (fun element => ha (some element)) hr).2 rfl)
    | record hr =>
      rw [hr]
      exact .add rfl rfl
    | array ha hi =>
      rw [ha]
      exact .add rfl ⟨bound, _, _, hi, rfl⟩
    | union hu => simp [hu, NodeKind.isUnion] at hk
    | conversion hc hsame =>
      rw [hc]
      refine ⟨⟨[], by simp, by simp [NodeKind.isTest]⟩, ?_⟩
      cases ho : chain.conversion with
      | none => rfl
      | some other => simp [hsame other ho]

theorem extend_parts {bound : Nat} {active : List NodeId} {ids : List NodeId}
    (hk : ∀ id ∈ ids, (m.kind id).isUnion = false)
    (h : ids.foldlM (fun chain id => m.extend bound active site chain id) chain = .ok chain') :
    m.Extends site (ids.map m.kind) chain chain' := by
  induction ids generalizing chain with
  | nil =>
    obtain rfl := Except.ok.inj h
    exact .nil
  | cons id ids ih =>
    rw [List.foldlM_cons] at h
    obtain ⟨c, hc, h⟩ := bind_eq_ok.1 h
    exact .cons (extend_part (hk id (by simp)) hc) (ih (fun x hx => hk x (by simp [hx])) h)

theorem extend_node (flat : m.Flat) {bound : Nat} {active : List NodeId} {id : NodeId}
    (h : m.extend bound active site chain id = .ok chain') :
    m.Extends site (m.parts id) chain chain' := by
  cases hk : m.kind id with
  | union members =>
    cases bound with
    | zero => simp [extend] at h
    | succ bound =>
      cases extend_cases h with
      | union hu h =>
        obtain rfl := NodeKind.union.inj (hk.symm.trans hu)
        rw [parts, hk]
        exact extend_parts (flat id members hk) h
      | leaf hl ht =>
        obtain rfl := hk.symm.trans hl
        cases ht
      | any hl | record hl | array hl | conversion hl => cases hk.symm.trans hl
  | _ =>
    have := extend_part (by rw [hk]; rfl) h
    simpa [parts, hk] using this

end

end Model

end Conform
