import Conform.Proofs.Builder.Numbering

/-! After its requests are resolved a builder holds an image of the types that they lead to: one
node for each of them, as the oracle describes it, and the node of `true` and `false` together. -/

namespace Conform

variable {D : Type} [DecidableEq D]

/-- The nodes that a kind refers to. -/
def NodeKind.refs : NodeKind → List NodeId
  | .array element => element.toList
  | .union members => members
  | .record _ members => members.map (·.2)
  | _ => []

/-- Whether a kind is what an oracle makes of a type without a conversion, where some types have
nodes. Which members a union keeps is left open. -/
inductive Depicts (o : Oracle D) (known : List (D × NodeId)) (d : D) : NodeKind → Prop
  | simple {t : Trait} {k : NodeKind} : o.trait? d = some t → t.kind? = some k → Depicts o known d k
  | literal {t : Trait} {value : Literal} : o.trait? d = some t → t.isLiteral →
      o.literalValue d = some value → Depicts o known d (.literal value)
  | array {element : D} {x : NodeId} : o.trait? d = some .array →
      o.arrayElement d = some element → (element, x) ∈ known → Depicts o known d (.array (some x))
  | union {members : List NodeId} : o.trait? d = some .union → Depicts o known d (.union members)
  | record {r : RecordId} {members : List (String × NodeId)} : o.trait? d = some .record →
      List.Forall₂ (fun f m => m.1 = f.1 ∧ (f.2, m.2) ∈ known) (o.recordFields d) members →
      Depicts o known d (.record r members)

namespace Builder

/-- Whether a builder is an image of the types that it has nodes for. -/
structure Image (o : Oracle D) (hooks : List (Hook D)) (b : Builder D) : Prop where
  /-- Resolving a type again gives its node and changes nothing. -/
  resolved : ∀ {d id}, (d, id) ∈ b.known → b.resolve o hooks d = (.ok id, b)
  same : ∀ {d d' id id'}, (d, id) ∈ b.known → (d', id') ∈ b.known → (id = id' ↔ d = d')
  lt : ∀ {d id}, (d, id) ∈ b.known → id < b.nodes.size
  /-- All nodes but that of `true` and `false` together are of one type each. -/
  owner : ∀ id < b.nodes.size, b.bothBooleans ≠ some id → ∃! d, (d, id) ∈ b.known
  both : ∀ id, b.bothBooleans = some id → b.kind id = .boolean
  hooked : ∀ {d id}, (d, id) ∈ b.known → ∀ h ∈ hooks, h.result = d →
    b.kind id = .conversion h.conversion
  depicts : ∀ {d id}, (d, id) ∈ b.known → (∀ h ∈ hooks, h.result ≠ d) →
    Depicts o b.known d (b.kind id)
  refs : ∀ id < b.nodes.size, ∀ x ∈ (b.kind id).refs, x < b.nodes.size
  /-- The records have all numbers below their count. -/
  numbers : ∀ r, r < b.recordCount ↔ ∃ id members, b.kind id = .record r members
  once : ∀ {i j r members members'}, b.kind i = .record r members →
    b.kind j = .record r members' → i = j

variable {o : Oracle D} {hooks : List (Hook D)} {b : Builder D} {d : D} {id : NodeId}

theorem hook?_eq_some (hh : (hooks.map (·.result)).Nodup) {h : Hook D} (hm : h ∈ hooks) :
    hook? hooks h.result = some h := by
  cases hf : hook? hooks h.result with
  | none => exact absurd (List.find?_eq_none.1 hf h hm) (by simp)
  | some h' =>
    have hr : h'.result = h.result := by simpa using List.find?_some hf
    rw [List.inj_on_of_nodup_map hh (List.mem_of_find?_eq_some hf) hm hr]

theorem hook?_eq_none (hd : ∀ h ∈ hooks, h.result ≠ d) : hook? hooks d = none :=
  List.find?_eq_none.2 fun h hm => by simpa using hd h hm

theorem Valid.resolve_known (h : b.Valid o hooks []) (hd : (d, id) ∈ b.known) :
    b.resolve o hooks d = (.ok id, b) := by
  rw [resolve, resolveWithin, (lookup_eq_some h).2 hd]

theorem Valid.kind_hooked (h : b.Valid o hooks []) (hh : (hooks.map (·.result)).Nodup)
    (hd : (d, id) ∈ b.known) {k : Hook D} (hk : k ∈ hooks) (hr : k.result = d) :
    b.kind id = .conversion k.conversion := by
  subst hr
  have hsome := hook?_eq_some hh hk
  have hs := h.suits hd
  generalize b.kind id = kind at hs
  cases hs with
  | conversion hc => rw [Option.some.inj (hc.symm.trans hsome)]
  | simple hn | literal hn | array hn | record hn => cases hn.symm.trans hsome
  | union hu => cases hu.1.symm.trans hsome

theorem Valid.depicts (h : b.Valid o hooks []) (hd : (d, id) ∈ b.known)
    (hn : ∀ k ∈ hooks, k.result ≠ d) : Depicts o b.known d (b.kind id) := by
  have hnone := hook?_eq_none hn
  have hf := h.finished hd List.not_mem_nil
  have hs := h.suits hd
  generalize b.kind id = k at hf hs
  cases hs with
  | conversion hc => cases hnone.symm.trans hc
  | simple _ ht hk => exact .simple ht hk
  | literal _ ht hl hv => exact .literal ht hl hv
  | array _ ht =>
    obtain ⟨x, y, rfl, hy, hx⟩ := hf
    exact .array ht hy hx
  | union hu => exact .union hu.2
  | record _ ht => exact .record ht hf

theorem Finished.refs_lt (h : b.Valid o hooks []) {k : NodeKind} (hf : Finished o hooks b d k) :
    ∀ x ∈ k.refs, x < b.nodes.size := by
  cases k with
  | array element =>
    obtain ⟨x, y, rfl, -, hx⟩ := hf
    simpa [NodeKind.refs] using h.lt hx
  | union members => exact hf.lt h
  | record r members =>
    intro x hx
    obtain ⟨m, hm, rfl⟩ := List.mem_map.1 hx
    obtain ⟨f, -, -, hknown⟩ := exists_of_mem_right hf hm
    exact h.lt hknown
  | _ => simp [NodeKind.refs]

theorem Valid.refs_lt (h : b.Valid o hooks []) (hid : id < b.nodes.size) :
    ∀ x ∈ (b.kind id).refs, x < b.nodes.size := by
  rcases h.nodes id hid with ⟨d, hd⟩ | hb
  · exact (h.finished hd List.not_mem_nil).refs_lt h
  · rw [h.both id hb]
    simp [NodeKind.refs]

theorem Numbered.lt_iff (hn : b.Numbered o hooks) (h : b.Valid o hooks []) (r : RecordId) :
    r < b.recordCount ↔ ∃ id members, b.kind id = .record r members := by
  constructor
  · intro hr
    rw [hn.count] at hr
    obtain ⟨id, members, -, hk⟩ := (hn.iff h).1 (List.getElem?_eq_getElem hr)
    exact ⟨id, members, hk⟩
  · rintro ⟨id, members, hk⟩
    exact h.counted hk

theorem Valid.image (h : b.Valid o hooks []) (hh : (hooks.map (·.result)).Nodup)
    (hn : b.Numbered o hooks) : b.Image o hooks where
  resolved := h.resolve_known
  same hx hy := ⟨fun he => h.type_unique hx (he ▸ hy), fun he => h.node_unique hx (he ▸ hy)⟩
  lt := h.lt
  owner id hid hb := by
    obtain ⟨d, hd⟩ := (h.nodes id hid).resolve_right hb
    exact ⟨d, hd, fun d' hd' => h.type_unique hd' hd⟩
  both := h.both
  hooked hd k hk hr := h.kind_hooked hh hd hk hr
  depicts := h.depicts
  refs _ hid := h.refs_lt hid
  numbers := hn.lt_iff h
  once := h.records

/-- A sequence of calls that resolve types gives two of them the same node only if they are the
same, and makes the builder an image of all types that it got nodes for. -/
theorem resolveRoots_image (o : Oracle D) (hooks : List (Hook D)) (requests : List (Request D))
    (roots : List Model.Root) (b : Builder D) (hh : (hooks.map (·.result)).Nodup)
    (h : resolveRoots o hooks .empty requests = .ok (roots, b)) :
    List.Forall₂ (fun q root => (q.root, root.node) ∈ b.known) requests roots ∧
      (∀ x ∈ requests.zip roots, ∀ y ∈ requests.zip roots,
        x.2.node = y.2.node ↔ x.1.root = y.1.root) ∧
      b.Image o hooks := by
  obtain ⟨ha, hroots⟩ := resolveRoots_advances valid_empty h
  obtain ⟨hn, -⟩ := (resolveRoots_runs valid_empty h).numbered .empty
  have himage := ha.valid.image hh hn
  have hknown := hroots.imp fun q root hroot => hroot.2.2
  refine ⟨hknown, fun x hx y hy => ?_, himage⟩
  have hzip : ∀ x ∈ requests.zip roots, (x.1.root, x.2.node) ∈ b.known := fun x hx =>
    (List.forall₂_iff_zip.1 hknown).2 hx
  exact himage.same (hzip x hx) (hzip y hy)

/-- Rings of records that refer to each other through a union, with a mark that is `true` or
`false`, and a date that is left to a conversion. -/
def rings : Oracle Nat where
  descriptors := List.range 7
  is d t := (d, t) ∈ [(0, Trait.record), (1, .union), (2, .union), (3, .booleanLiteral),
    (4, .booleanLiteral), (5, .array), (6, .record)]
  unionMembers d := if d = 1 then [5, 0] else if d = 2 then [3, 4] else []
  recordFields d := if d = 0 then [("next", 1), ("mark", 2), ("made", 6)] else []
  arrayElement d := if d = 5 then some 0 else none
  literalValue d := if d = 3 then some (.boolean true) else if d = 4 then some (.boolean false)
    else none
  typeName d := toString d

def dates : List (Hook Nat) := [⟨6, "return new Date(value);", 1⟩]

def wishes : List (Request Nat) := [⟨"parseRing", 0⟩, ⟨"parseMark", 2⟩, ⟨"parseAgain", 0⟩]

theorem resolveRoots_image_rings : ∃ roots b, (dates.map (·.result)).Nodup ∧
    resolveRoots rings dates .empty wishes = .ok (roots, b) ∧
    List.Forall₂ (fun q root => (q.root, root.node) ∈ b.known) wishes roots ∧
    (∀ x ∈ wishes.zip roots, ∀ y ∈ wishes.zip roots,
      x.2.node = y.2.node ↔ x.1.root = y.1.root) ∧
    b.Image rings dates := by
  obtain ⟨⟨roots, b⟩, h⟩ : ∃ x, resolveRoots rings dates .empty wishes = .ok x :=
    exists_of_isOk (by decide +kernel)
  have hh : (dates.map (·.result)).Nodup := by simp [dates]
  exact ⟨roots, b, hh, h, resolveRoots_image rings dates wishes roots b hh h⟩

end Builder

end Conform
