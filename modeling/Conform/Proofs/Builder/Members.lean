import Conform.Proofs.Builder.Arranged

/-! The members of unions. What is left of the types of a union has its nodes among the members, in
the order that `arrange` gives, and it does not matter how the types were nested. -/

namespace Conform

section

variable {D : Type} [DecidableEq D] (o : Oracle D) (hooks : List (Hook D))

/-- Whether some types are what is left of others when unions are taken apart, in order. -/
inductive Leaves : List D → List D → Prop
  | nil : Leaves [] []
  | leaf {d : D} {ds ls : List D} : ¬ IsUnion o hooks d → Leaves ds ls → Leaves (d :: ds) (d :: ls)
  | union {d : D} {ds ms ls : List D} : IsUnion o hooks d → Leaves (o.unionMembers d) ms →
      Leaves ds ls → Leaves (d :: ds) (ms ++ ls)

end

variable {D : Type} [DecidableEq D] {o : Oracle D} {hooks : List (Hook D)}
  {ds es ls ms : List D} {d l m : D}

namespace Leaves

theorem unique (h : Leaves o hooks ds ls) (h' : Leaves o hooks ds ms) : ls = ms := by
  induction h generalizing ms with
  | nil =>
    cases h'
    rfl
  | leaf hd _ ih =>
    cases h' with
    | leaf _ h' => rw [ih h']
    | union hu => exact absurd hu hd
  | union hd _ _ ihm ih =>
    cases h' with
    | leaf hn => exact absurd hd hn
    | union _ hm h' => rw [ihm hm, ih h']

theorem append (h : Leaves o hooks ds ls) (h' : Leaves o hooks es ms) :
    Leaves o hooks (ds ++ es) (ls ++ ms) := by
  induction h with
  | nil => exact h'
  | leaf hd _ ih => exact .leaf hd ih
  | union hd hm _ _ ih =>
    rw [List.append_assoc]
    exact .union hd hm ih

theorem exists_of_append (h : Leaves o hooks (ds ++ es) ls) :
    ∃ ls₁ ls₂, ls = ls₁ ++ ls₂ ∧ Leaves o hooks ds ls₁ ∧ Leaves o hooks es ls₂ := by
  induction ds generalizing ls with
  | nil => exact ⟨[], ls, rfl, .nil, h⟩
  | cons d ds ih =>
    cases h with
    | leaf hd h =>
      obtain ⟨ls₁, ls₂, rfl, h₁, h₂⟩ := ih h
      exact ⟨d :: ls₁, ls₂, rfl, .leaf hd h₁, h₂⟩
    | @union _ _ ms _ hd hm h =>
      obtain ⟨ls₁, ls₂, rfl, h₁, h₂⟩ := ih h
      exact ⟨ms ++ ls₁, ls₂, (List.append_assoc ..).symm, .union hd hm h₁, h₂⟩

/-- A union can be written as its members. -/
theorem inline (hm : IsUnion o hooks m) (h : Leaves o hooks (ds ++ m :: es) ls) :
    Leaves o hooks (ds ++ o.unionMembers m ++ es) ls := by
  obtain ⟨ls₁, ls₂, rfl, h₁, h₂⟩ := h.exists_of_append
  cases h₂ with
  | leaf hn => exact absurd hm hn
  | union _ hmem h₂ =>
    rw [List.append_assoc]
    exact h₁.append (hmem.append h₂)

theorem mem_iff (h : Leaves o hooks ds ls) : l ∈ ls ↔ ∃ d ∈ ds, Leaf o hooks d l := by
  induction h with
  | nil => simp
  | leaf hd _ ih => simp [ih, leaf_self_iff hd]
  | union hd _ _ ihm ih => simp [ihm, ih, leaf_iff hd]

end Leaves

/-! ### Pieces in order -/

theorem nodup_foldPiece {ps : List (Piece D)} (hn : ps.Nodup) (p : Piece D) :
    (foldPiece o hooks ps p).Nodup :=
  (foldsIn_foldBy (Piece.facet o hooks) .both ps p).nodup rfl hn

theorem nodup_foldl_foldPiece {ps : List (Piece D)} (hn : ps.Nodup) (ms : List (Piece D)) :
    (ms.foldl (foldPiece o hooks) ps).Nodup := by
  induction ms generalizing ps with
  | nil => exact hn
  | cons m ms ih => exact ih (nodup_foldPiece hn m)

theorem Pieces.nodup {ps qs : List (Piece D)} (h : Pieces o hooks ps ds qs) (hn : ps.Nodup) :
    qs.Nodup := by
  induction h with
  | nil => exact hn
  | leaf _ _ ih => exact ih (nodup_foldPiece hn _)
  | @union _ _ ms _ _ _ _ _ _ ih => exact ih (nodup_foldl_foldPiece hn ms)

theorem Pieces.arranged {ps qs : List (Piece D)} (h : Pieces o hooks ps ds qs) :
    ∃ ls, Leaves o hooks ds ls ∧ ∀ xs : List (Piece D),
      ps.filter (isPlain (Piece.facet o hooks)) = arrange (Piece.facet o hooks) xs.eraseDups →
      qs.filter (isPlain (Piece.facet o hooks)) = arrange (Piece.facet o hooks)
        (xs ++ (ls.map Piece.type).filter (isPlain (Piece.facet o hooks))).eraseDups := by
  induction h with
  | nil => exact ⟨[], .nil, fun xs hxs => by simpa using hxs⟩
  | @leaf ps qs d ds hd _ ih =>
    obtain ⟨ls, hls, hq⟩ := ih
    refine ⟨d :: ls, .leaf hd hls, fun xs hxs => ?_⟩
    rw [hq _ (filter_foldBy rfl hxs (.type d)), List.append_assoc, ← List.filter_append]
    rfl
  | @union ps qs ms d ds hd _ _ ihm ih =>
    obtain ⟨ls₁, hls₁, hm⟩ := ihm
    obtain ⟨ls₂, hls₂, hq⟩ := ih
    refine ⟨ls₁ ++ ls₂, .union hd hls₁ hls₂, fun xs hxs => ?_⟩
    have hms := hm [] rfl
    rw [List.nil_append] at hms
    have hboth : Piece.facet o hooks .both = .boolean := rfl
    have hfold := filter_foldl_foldBy hboth hxs ms
    rw [hms, arrange_eraseDups_append] at hfold
    rw [hq _ hfold, List.append_assoc, ← List.filter_append, ← List.map_append]

theorem Pieces.leaves {ps : List (Piece D)} (h : Pieces o hooks [] ds ps) :
    ∃ ls, Leaves o hooks ds ls ∧ ps.filter (isPlain (Piece.facet o hooks)) =
      (arrange (facetOf o hooks) (ls.eraseDups.filter (isPlain (facetOf o hooks)))).map .type := by
  obtain ⟨ls, hls, hps⟩ := h.arranged
  refine ⟨ls, hls, ?_⟩
  have hinj : Function.Injective (Piece.type : D → Piece D) := fun _ _ => Piece.type.inj
  rw [hps [] rfl, List.nil_append, List.filter_map, eraseDups_map hinj, arrange_map,
    ← eraseDups_filter]
  rfl

namespace Builder

variable {b : Builder D} {waiting : List NodeId} {id : NodeId}

omit [DecidableEq D] in
theorem isBooleanPart_eq (b : Builder D) (x : NodeId) :
    b.isBooleanPart x = (b.kind x).facet.isBooleanPart := by
  obtain ⟨hboolean, -, hsome, -, -⟩ := b.facets
  rw [isBooleanPart, congrFun hboolean x, congrFun hsome x]
  cases (b.kind x).facet <;> rfl

/-- Whether nodes are the members of a union without its booleans. -/
def Lists (o : Oracle D) (hooks : List (Hook D)) (b : Builder D) (leaves : List D)
    (members : List NodeId) : Prop :=
  List.Forall₂ (fun l x => (l, x) ∈ b.known)
    (arrange (facetOf o hooks) (leaves.eraseDups.filter (isPlain (facetOf o hooks))))
    (members.filter fun x => !b.isBooleanPart x)

/-- The members of a union are what is left of its types, in order. -/
theorem Valid.lists (h : b.Valid o hooks waiting) (hp : Pieced o hooks b waiting)
    (hd : (d, id) ∈ b.known) (hu : IsUnion o hooks d) (hid : id ∉ waiting) :
    ∃ leaves members, Leaves o hooks (o.unionMembers d) leaves ∧ b.kind id = .union members ∧
      b.Lists o hooks leaves members ∧ members.Nodup := by
  obtain ⟨members, hk⟩ := (h.suits hd).eq_union hu
  obtain ⟨ps, hps, hm⟩ := hp.pieces hd hid hk
  obtain ⟨leaves, hl, hpl⟩ := hps.leaves
  refine ⟨leaves, members, hl, hk, ?_, ?_⟩
  · have hfilter : List.Forall₂ b.IsPiece (ps.filter (isPlain (Piece.facet o hooks)))
        (members.filter fun x => !b.isBooleanPart x) := by
      refine List.rel_filter (fun p x hpx => ?_) hm
      simp only [isPlain, isBooleanPart_eq, h.isPiece_facet hpx]
    rw [hpl, List.forall₂_map_left_iff] at hfilter
    exact hfilter
  · exact (List.rel_nodup (h.isPiece_unique hp) hm).1 (hps.nodup List.nodup_nil)

omit [DecidableEq D] in
theorem isArray_eq (b : Builder D) (x : NodeId) : b.isArray x = ((b.kind x).facet == .array) := by
  rw [isArray]
  cases b.kind x with
  | literal value => cases value <;> rfl
  | _ => rfl

theorem Lists.facets (h : b.Valid o hooks waiting) {leaves : List D} {members : List NodeId}
    (hl : b.Lists o hooks leaves members) :
    (arrange (facetOf o hooks) (leaves.eraseDups.filter (isPlain (facetOf o hooks)))).map
        (facetOf o hooks) =
      (members.filter fun x => !b.isBooleanPart x).map fun x => (b.kind x).facet := by
  have heq : List.Forall₂ (fun l x => facetOf o hooks l = (b.kind x).facet)
      (arrange (facetOf o hooks) (leaves.eraseDups.filter (isPlain (facetOf o hooks))))
      (members.filter fun x => !b.isBooleanPart x) :=
    List.Forall₂.imp (fun l x hx => (h.suits hx).facet.symm) hl
  rwa [← List.forall₂_eq_eq_eq, List.forall₂_map_left_iff, List.forall₂_map_right_iff]

theorem Lists.pairwise (h : b.Valid o hooks waiting) {leaves : List D} {members : List NodeId}
    (hl : b.Lists o hooks leaves members) :
    members.Pairwise fun x y => b.isRecord x → b.isArray y = false := by
  have hfacets := pairwise_arrange (facetOf o hooks)
    (leaves.eraseDups.filter (isPlain (facetOf o hooks)))
  rw [← List.pairwise_map (R := fun f g => f = Facet.record → g ≠ .array), hl.facets h,
    List.pairwise_map, List.pairwise_filter] at hfacets
  refine hfacets.imp fun {x y} hxy hx => ?_
  obtain ⟨-, hrecord, -⟩ := b.facets
  have hx : (b.kind x).facet = .record := by simpa [hrecord] using hx
  rw [Bool.eq_false_iff, isArray_eq, ne_eq, beq_iff_eq]
  intro hy
  refine hxy ?_ ?_ hx hy <;> simp [isBooleanPart_eq, hx, hy, Facet.isBooleanPart]

theorem Valid.covers (h : b.Valid o hooks waiting) (hd : (d, id) ∈ b.known) (hid : id ∉ waiting)
    {leaves : List D} {members : List NodeId} (hl : Leaves o hooks (o.unionMembers d) leaves)
    (hk : b.kind id = .union members) :
    ∀ l ∈ leaves, ∃ x, (l, x) ∈ b.known ∧
      (x ∈ members ∨ b.isBooleanPart x ∧ ∃ y ∈ members, b.isBoolean y) := by
  obtain ⟨-, hg⟩ := h.of_union hd hid hk
  intro l hmem
  obtain ⟨m, hm, hleaf⟩ := hl.mem_iff.1 hmem
  obtain ⟨x, hx⟩ := hg.known m hm l hleaf
  exact ⟨x, hx, hg.gathers.complete x ⟨m, hm, l, hleaf, hx⟩⟩

theorem Lists.unique (h : b.Valid o hooks waiting) {leaves : List D}
    {members members' : List NodeId} (hl : b.Lists o hooks leaves members)
    (hl' : b.Lists o hooks leaves members') :
    (members.filter fun x => !b.isBooleanPart x) = members'.filter fun x => !b.isBooleanPart x := by
  have hr : Relator.RightUnique fun (l : D) x => (l, x) ∈ b.known :=
    fun _ _ _ hx hy => h.node_unique hx hy
  exact List.right_unique_forall₂' hr hl hl'

theorem Lists.grow {b' : Builder D} (hg : b.Grows b') {leaves : List D}
    {members : List NodeId} (hl : b.Lists o hooks leaves members)
    (hlt : ∀ x ∈ members, x < b.nodes.size) :
    b'.Lists o hooks leaves members ∧ (members.filter fun x => !b'.isBooleanPart x) =
      members.filter fun x => !b.isBooleanPart x := by
  have heq : (members.filter fun x => !b'.isBooleanPart x) =
      members.filter fun x => !b.isBooleanPart x := by
    refine List.filter_congr fun x hx => ?_
    rw [isBooleanPart_eq, isBooleanPart_eq, hg.kind (hlt x hx)]
  refine ⟨?_, heq⟩
  rw [Lists, heq]
  exact List.Forall₂.imp (fun l x hx => hg.known _ hx) hl

/-- The members of a union that are no booleans are what is left of its types, each where it first
occurs, but with the arrays among those that follow the first record in front of it. None is a
union, none comes twice, and none is lost. A union can be written as its members. -/
theorem resolve_union_members (o : Oracle D) (hooks : List (Hook D)) (requests : List (Request D))
    (roots : List Model.Root) (b b' : Builder D) (d : D) (id : NodeId)
    (h : resolveRoots o hooks .empty requests = .ok (roots, b)) (hu : IsUnion o hooks d)
    (hd : b.resolve o hooks d = (.ok id, b')) :
    ∃ leaves members, (∀ ls, Leaves o hooks (o.unionMembers d) ls ↔ ls = leaves) ∧
      b'.kind id = .union members ∧ b'.Lists o hooks leaves members ∧ members.Nodup ∧
      (∀ x ∈ members, (b'.kind x).isUnion = false) ∧
      (members.Pairwise fun x y => b'.isRecord x → b'.isArray y = false) ∧
      (∀ l ∈ leaves, ∃ x, (l, x) ∈ b'.known ∧
        (x ∈ members ∨ b'.isBooleanPart x ∧ ∃ y ∈ members, b'.isBoolean y)) ∧
      ∀ e id' b'' before m after, IsUnion o hooks e → IsUnion o hooks m →
        o.unionMembers d = before ++ m :: after →
        o.unionMembers e = before ++ o.unionMembers m ++ after →
        b'.resolve o hooks e = (.ok id', b'') → ∃ members', b''.kind id' = .union members' ∧
          (members'.filter fun x => !b''.isBooleanPart x) =
            members.filter fun x => !b'.isBooleanPart x := by
  obtain ⟨ha, -⟩ := resolveRoots_advances valid_empty h
  obtain ⟨hp, -⟩ := (resolveRoots_runs valid_empty h).pieced .empty
  obtain ⟨ha', hid⟩ := resolveWithin_resolves _ ha.valid hd
  obtain ⟨hp', -⟩ := (resolveWithin_runs _ ha.valid hd).pieced hp
  obtain ⟨leaves, members, hl, hk, hlists, hn⟩ :=
    ha'.valid.lists hp' hid hu List.not_mem_nil
  refine ⟨leaves, members, fun ls => ⟨fun h' => h'.unique hl, ?_⟩, hk, hlists, hn,
    ha'.valid.flat id members hk, hlists.pairwise ha'.valid,
    ha'.valid.covers hid List.not_mem_nil hl hk, ?_⟩
  · rintro rfl
    exact hl
  intro e id' b'' before m after he hm hmem hmem' hr
  obtain ⟨ha'', hid'⟩ := resolveWithin_resolves _ ha'.valid hr
  obtain ⟨hp'', -⟩ := (resolveWithin_runs _ ha'.valid hr).pieced hp'
  obtain ⟨leaves', members', hl', hk', hlists', -⟩ :=
    ha''.valid.lists hp'' hid' he List.not_mem_nil
  have hsame : leaves' = leaves := by
    rw [hmem] at hl
    rw [hmem'] at hl'
    exact hl'.unique (hl.inline hm)
  subst hsame
  have hlt : ∀ x ∈ members, x < b'.nodes.size := by
    have := ha'.valid.refs_lt (ha'.valid.lt hid)
    rwa [hk] at this
  obtain ⟨hgrown, heq⟩ := hlists.grow ha''.grows hlt
  exact ⟨members', hk', (hlists'.unique ha''.valid hgrown).trans heq⟩

/-- A record, then a list or a text, then `true`; and the same without a union inside. -/
def nested : Oracle Nat where
  descriptors := List.range 8
  is d t := [(0, Trait.union), (1, .record), (2, .union), (3, .array), (4, .string),
    (5, .booleanLiteral), (6, .union), (7, .number)].contains (d, t)
  unionMembers d := if d = 0 then [1, 2, 5, 1] else if d = 2 then [3, 4] else
    if d = 6 then [1, 3, 4, 5, 1] else []
  recordFields _ := []
  arrayElement d := if d = 3 then some 7 else none
  literalValue d := if d = 5 then some (.boolean true) else none
  typeName d := toString d

theorem resolve_union_members_nested : ∃ roots b id b' members,
    resolveRoots nested [] .empty [⟨"parseText", 2⟩] = .ok (roots, b) ∧ IsUnion nested [] 0 ∧
    b.resolve nested [] 0 = (.ok id, b') ∧ b'.kind id = .union members ∧
    b'.Lists nested [] [1, 3, 4, 5, 1] members ∧
    ∀ id' b'', b'.resolve nested [] 6 = (.ok id', b'') →
      ∃ members', b''.kind id' = .union members' ∧
        (members'.filter fun x => !b''.isBooleanPart x) =
          members.filter fun x => !b'.isBooleanPart x := by
  have hunion : ∀ d ∈ [0, 2, 6], IsUnion nested [] d := by decide
  have hleaf : ∀ d ∈ [1, 3, 4, 5], ¬ IsUnion nested [] d := by decide
  obtain ⟨id, hid⟩ : ∃ id, (resolveRoots nested [] .empty [⟨"parseText", 2⟩] >>= fun r =>
      (r.2.resolve nested [] 0).1) = .ok id := exists_of_isOk (by decide +kernel)
  obtain ⟨⟨roots, b⟩, h, hd⟩ := bind_eq_ok.1 hid
  have hd : b.resolve nested [] 0 = (.ok id, (b.resolve nested [] 0).2) := Prod.ext hd rfl
  have h0 : IsUnion nested [] 0 := hunion 0 (by simp)
  obtain ⟨leaves, members, hl, hk, hlists, -, -, -, -, hinline⟩ :=
    resolve_union_members nested [] _ roots b _ 0 id h h0 hd
  have hleaves : Leaves nested [] (nested.unionMembers 0) [1, 3, 4, 5, 1] :=
    .leaf (hleaf 1 (by simp)) (.union (hunion 2 (by simp))
      (.leaf (hleaf 3 (by simp)) (.leaf (hleaf 4 (by simp)) .nil))
      (.leaf (hleaf 5 (by simp)) (.leaf (hleaf 1 (by simp)) .nil)))
  obtain rfl := (hl _).1 hleaves
  exact ⟨roots, b, id, _, members, h, h0, hd, hk, hlists, fun id' b'' hr =>
    hinline 6 id' b'' [1] 2 [5, 1] (hunion 6 (by simp)) (hunion 2 (by simp)) rfl rfl hr⟩

end Builder

end Conform
