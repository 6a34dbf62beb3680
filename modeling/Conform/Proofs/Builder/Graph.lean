import Conform.Model.Compile
import Conform.Proofs.Builder.Resolving
import Conform.Proofs.Model.Validators

/-! The model that is left when all requests are resolved: its unions are flat, its records can be
told apart, and each of its nodes stands for a type. -/

namespace Conform

variable {D : Type} [DecidableEq D] {o : Oracle D} {hooks : List (Hook D)}

/-- Whether a root stands for a request. -/
def RootOf (o : Oracle D) (b : Builder D) (r : Request D) (root : Model.Root) : Prop :=
  root.name = r.name ∧ root.returnType = o.typeName r.root ∧ (r.root, root.node) ∈ b.known

omit [DecidableEq D] in
theorem names_roots {b : Builder D} {requests : List (Request D)} {roots : List Model.Root}
    (h : List.Forall₂ (RootOf o b) requests roots) :
    roots.map (·.name) = requests.map (·.name) := by
  induction h with
  | nil => rfl
  | cons hr hrs ih => simp [hr.1, ih]

theorem resolveRoots_advances {b b' : Builder D} {requests : List (Request D)}
    {roots : List Model.Root} (h : b.Valid o hooks [])
    (hf : resolveRoots o hooks b requests = .ok (roots, b')) :
    b.Advances o hooks [] b' ∧ List.Forall₂ (RootOf o b') requests roots := by
  induction requests generalizing b roots with
  | nil =>
    obtain ⟨rfl, rfl⟩ : [] = roots ∧ b = b' := by simpa [resolveRoots] using hf
    exact ⟨⟨h, .refl b, rfl⟩, .nil⟩
  | cons r rs ih =>
    simp only [resolveRoots] at hf
    split at hf
    · simp at hf
    · rename_i id b₁ hr
      obtain ⟨ha, hid⟩ := Builder.resolveWithin_resolves _ h hr
      obtain ⟨⟨roots', b₂⟩, hrs, hf⟩ := bind_eq_ok.1 hf
      cases hf
      obtain ⟨ha', hroots⟩ := ih ha.valid hrs
      exact ⟨ha.trans ha', .cons ⟨rfl, rfl, ha'.grows.known _ hid⟩ hroots⟩

namespace Builder.Valid

variable {b : Builder D}

/-- A node with a kind of its own is that of a type, or the node of both booleans. -/
theorem exists_type {waiting : List NodeId} (h : b.Valid o hooks waiting) {id : NodeId}
    (hk : b.kind id ≠ .any) (hb : b.kind id ≠ .boolean) : ∃ d, (d, id) ∈ b.known := by
  refine (h.nodes id (lt_size_of_kind hk)).resolve_right fun hboth => hb (h.both id hboth)

theorem isUnion_eq_false_of_gathered {waiting folded : List NodeId} {ms : List D} {x : NodeId}
    (h : b.Valid o hooks waiting) (hg : Gathered o hooks b ms folded) (hx : x ∈ folded) :
    (b.kind x).isUnion = false := by
  rcases hg.gathers.sound x hx with ⟨m, -, l, hl, hlx⟩ | ⟨hboth, -⟩
  · rw [Bool.eq_false_iff]
    exact fun hu => hl.not_union ((h.suits hlx).isUnion_iff.1 hu)
  · rw [h.both x hboth]
    rfl

/-- A union that is not being folded has no unions as members. -/
theorem isUnion_eq_false {waiting members : List NodeId} {id x : NodeId}
    (h : b.Valid o hooks waiting) (hk : b.kind id = .union members) (hid : id ∉ b.folding)
    (hx : x ∈ members) : (b.kind x).isUnion = false := by
  have hw : id ∉ waiting := fun hw => hid ((h.folding id).2 ⟨hw, by rw [hk]; rfl⟩)
  obtain ⟨d, hd⟩ := h.exists_type (by rw [hk]; simp) (by rw [hk]; simp)
  obtain ⟨-, hg⟩ := h.of_union hd hw hk
  exact h.isUnion_eq_false_of_gathered hg hx

theorem flat (h : b.Valid o hooks []) : b.finish.Flat := fun id _ hk _ hx =>
  h.isUnion_eq_false hk (fun hid => by simpa using ((h.folding id).1 hid).1) hx

theorem numbered (h : b.Valid o hooks []) : b.finish.Numbered := by
  intro id record members hk
  have hk : b.kind id = .record record members := hk
  have hsome : (b.finish.recordMembers? record).isSome := by
    have hlt : id < b.nodes.size := lt_size_of_kind (by rw [hk]; simp)
    have hnode : b.nodes[id].kind = .record record members := by
      simpa [kind, node?, hlt] using hk
    rw [Model.recordMembers?, Array.findSome?_isSome_iff]
    exact ⟨b.nodes[id], Array.getElem_mem hlt, by simp [hnode]⟩
  obtain ⟨members', hm⟩ := Option.isSome_iff_exists.1 hsome
  rw [hm]
  obtain ⟨node, hnode, hf⟩ := Array.exists_of_findSome?_eq_some hm
  obtain ⟨j, hj, rfl⟩ := Array.mem_iff_getElem.1 hnode
  split at hf
  · rename_i r ms hkj
    split_ifs at hf with hr
    subst hr
    have hkj' : b.kind j = .record r ms := by
      have hj : j < b.nodes.size := hj
      have hkj : b.nodes[j].kind = .record r ms := hkj
      simp [kind, node?, hj, hkj]
    obtain rfl := h.records hk hkj'
    rw [hk] at hkj'
    cases hkj'
    exact hf.symm
  · cases hf

theorem model_counted (h : b.Valid o hooks []) : b.finish.Counted :=
  fun _ _ _ hk => h.counted hk

theorem plain (h : b.Valid o ([] : List (Hook D)) []) : b.finish.Plain := by
  intro id n hk
  have hk : b.kind id = .conversion n := hk
  obtain ⟨d, hd⟩ := h.exists_type (by rw [hk]; simp) (by rw [hk]; simp)
  obtain ⟨k, hh, -⟩ := (hk ▸ h.suits hd).of_conversion
  cases hh

theorem names_members (h : b.Valid o hooks []) {id : NodeId} {record : RecordId}
    {members : List (String × NodeId)} (hk : b.kind id = .record record members) :
    ∃ d, Fields.names members = Fields.names (o.recordFields d) := by
  obtain ⟨d, hd⟩ := h.exists_type (by rw [hk]; simp) (by rw [hk]; simp)
  obtain ⟨-, -, hf⟩ := h.of_record hd List.not_mem_nil hk
  refine ⟨d, ?_⟩
  generalize o.recordFields d = fs at hf
  clear hk
  induction hf with
  | nil => rfl
  | cons hm _ ih =>
    rw [Fields.names, List.map_cons, hm.1]
    exact congrArg _ ih

end Builder.Valid

end Conform
