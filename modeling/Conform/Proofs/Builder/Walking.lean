import Conform.Proofs.Builder.Graph
import Conform.Proofs.Builder.Walk

/-! Resolving succeeds exactly where its walk does and all types on the way are in order. -/

namespace Conform

variable {D : Type} [DecidableEq D] {o : Oracle D} {hooks : List (Hook D)}

/-- Whether a type by itself can be resolved: it is of a kind, has what types of the kind have, and
stands for at most one type with a conversion. -/
structure Fine (o : Oracle D) (hooks : List (Hook D)) (d : D) : Prop where
  trait : hook? hooks d = none → (o.trait? d).isSome
  literal : ∀ {t}, hook? hooks d = none → o.trait? d = some t → t.isLiteral →
    (o.literalValue d).isSome
  element : hook? hooks d = none → o.trait? d = some .array → (o.arrayElement d).isSome
  single : ∀ {l l'}, Leaf o hooks d l → Leaf o hooks d l' → (hook? hooks l).isSome →
    (hook? hooks l').isSome → l = l'

/-- Whether the answers of an oracle lead to types that it lists only. -/
def Oracle.Listed (o : Oracle D) (hooks : List (Hook D)) : Prop :=
  ∀ d ∈ o.descriptors, ∀ c ∈ children o hooks d, c ∈ o.descriptors

def Oracle.unseen (o : Oracle D) (seen : List D) : Nat :=
  (o.descriptors.filter fun d => !seen.contains d).length

theorem Oracle.unseen_le {seen seen' : List D} (h : seen ⊆ seen') :
    o.unseen seen' ≤ o.unseen seen := by
  refine List.Sublist.length_le (List.monotone_filter_right _ fun d hd => ?_)
  have hd : d ∉ seen' := by simpa using hd
  simpa using fun hs => hd (h hs)

theorem Oracle.unseen_lt {seen : List D} {d : D} (hd : d ∈ o.descriptors) (hn : d ∉ seen) :
    o.unseen (d :: seen) < o.unseen seen := by
  have hf : (o.descriptors.filter fun c => !(d :: seen).contains c) =
      (o.descriptors.filter fun c => !seen.contains c).filter (· != d) := by
    rw [List.filter_filter]
    refine List.filter_congr fun c _ => ?_
    by_cases hc : c = d <;> simp [hc]
  rw [unseen, unseen, hf]
  refine Nat.lt_of_le_of_ne (List.length_filter_le _ _) fun he => ?_
  have := List.length_filter_eq_length_iff.1 he d (List.mem_filter.2 ⟨hd, by simpa using hn⟩)
  simp at this

theorem Fine.refuses_eq_false {d : D} (h : Fine o hooks d) (hh : hook? hooks d = none) :
    o.refuses d = false := by
  obtain ⟨t, ht⟩ := Option.isSome_iff_exists.1 (h.trait hh)
  cases hl : t.isLiteral with
  | false => exact o.refuses_eq_false ht hl
  | true =>
    obtain ⟨value, hv⟩ := Option.isSome_iff_exists.1 (h.literal hh ht hl)
    simp [Oracle.refuses, ht, hv]

namespace Builder

def types (b : Builder D) : List D := b.known.map (·.1)

omit [DecidableEq D] in
theorem mem_types {b : Builder D} {d : D} : d ∈ b.types ↔ ∃ id, (d, id) ∈ b.known := by
  simp [types]

/-- Whether these are the unions that a builder is folding. -/
def Opens (b : Builder D) (around : List D) : Prop :=
  ∀ d, d ∈ around ↔ ∃ id ∈ b.folding, (d, id) ∈ b.known

/-- What the walk of some types has to do with how resolving them ended, provided that `P`. -/
def Outcome (o : Oracle D) (hooks : List (Hook D)) {α : Type} (P : Prop)
    (around seen ds : List D) : Result D α → Prop
  | (.ok _, b) => P ∧ Walks o hooks around seen ds b.types
  | (.error _, _) => P → ∀ seen', Walks o hooks around seen ds seen' →
      ∃ d ∈ seen', ¬ Fine o hooks d

/-- What has to hold of a builder for a walk to tell how resolving ends: few enough types are
unseen. -/
structure Ready (o : Oracle D) (hooks : List (Hook D)) (bound : Nat) (b : Builder D)
    (waiting : List NodeId) (around : List D) : Prop where
  valid : Valid o hooks b waiting
  opens : b.Opens around
  unseen : o.unseen b.types < bound

/-- Whether resolving a type comes to what its walk says. -/
def Explores (o : Oracle D) (hooks : List (Hook D)) (bound : Nat)
    (resolve : Builder D → D → Result D NodeId) : Prop :=
  ∀ ⦃b : Builder D⦄ ⦃waiting : List NodeId⦄ ⦃around : List D⦄ ⦃d : D⦄,
    Ready o hooks bound b waiting around → d ∈ o.descriptors →
    Outcome o hooks True around b.types [d] (resolve b d)

section

variable {b b' b₁ : Builder D} {waiting folded folded' : List NodeId} {around seen seen₁ ds ms : List D}
  {d m : D} {id x union : NodeId} {name : String} {k : NodeKind} {bound : Nat} {P : Prop}
  {resolve : Builder D → D → Result D NodeId}

theorem Outcome.fail {α β : Type} {e e' : CompileError}
    (h : Outcome o hooks (α := α) True around seen [d] (.error e, b)) :
    Outcome o hooks (α := β) P around seen (d :: ds) (.error e', b') := by
  intro _ seen' hw
  obtain ⟨s, hd, hds⟩ := hw.head
  obtain ⟨y, hy, hf⟩ := h trivial s hd
  exact ⟨y, hds.mono hy, hf⟩

theorem Outcome.cons {α : Type} {r : Result D α} (hd : Walks o hooks around seen [d] seen₁)
    (h : Outcome o hooks P around seen₁ ds r) : Outcome o hooks P around seen (d :: ds) r := by
  obtain ⟨r, b'⟩ := r
  cases r with
  | ok a => exact ⟨h.1, hd.cons h.2⟩
  | error e =>
    intro hP seen' hw
    obtain ⟨s, hd', hds⟩ := hw.head
    obtain rfl := hd'.unique hd
    exact h hP seen' hds

theorem Outcome.congr {α : Type} {Q : Prop} {r : Result D α} (hPQ : P ↔ Q)
    (h : Outcome o hooks P around seen ds r) : Outcome o hooks Q around seen ds r := by
  rwa [← propext hPQ]

theorem Outcome.not_fine {α : Type} {e : CompileError} (hd : ¬ Fine o hooks d) :
    Outcome o hooks (α := α) P around seen [d] (.error e, b) :=
  fun _ _ hw => ⟨d, hw.seen_of_mem (by simp), hd⟩

theorem Outcome.sealed {α : Type} {r : Result D α} {parts : α → Builder D → Builder D}
    (hd : d ∉ seen) (hp : ∀ a b, (parts a b).types = b.types)
    (h : Outcome o hooks (IsUnion o hooks d → ∀ c ∈ children o hooks d, IsUnion o hooks c →
      c ∉ inner o hooks around d) (inner o hooks around d) (d :: seen) (children o hooks d) r) :
    Outcome o hooks True around seen [d] (sealed id parts r) := by
  obtain ⟨e | a, b⟩ := r
  · intro _ seen' hw
    cases hw with
    | old hs => exact absurd hs hd
    | new _ hm hc hn =>
      cases hn
      exact h hm _ hc
  · refine ⟨trivial, .new hd h.1 h.2 ?_⟩
    rw [hp]
    exact .nil

theorem types_advances (ha : Advances o hooks waiting b b') : b.types ⊆ b'.types := by
  intro c hc
  obtain ⟨i, hi⟩ := mem_types.1 hc
  exact mem_types.2 ⟨i, ha.grows.known _ hi⟩

theorem Ready.advances (h : Ready o hooks bound b waiting around)
    (ha : Advances o hooks waiting b b') : Ready o hooks bound b' waiting around := by
  refine ⟨ha.valid, fun c => ?_, Nat.lt_of_le_of_lt (o.unseen_le (types_advances ha)) h.unseen⟩
  rw [h.opens c, ha.folding]
  constructor
  · rintro ⟨i, hi, hc⟩
    exact ⟨i, hi, ha.grows.known _ hc⟩
  · rintro ⟨i, hi, hc⟩
    obtain ⟨-, hu⟩ := (h.valid.folding i).1 hi
    cases hk : b.kind i with
    | union members =>
      obtain ⟨c', hc'⟩ := h.valid.exists_type (by rw [hk]; simp) (by rw [hk]; simp)
      obtain rfl := ha.valid.type_unique hc (ha.grows.known _ hc')
      exact ⟨i, hi, hc'⟩
    | _ => simp [hk, NodeKind.isUnion] at hu

theorem Ready.setKind (h : Ready o hooks bound b waiting around) (hid : id ∈ waiting)
    (hk : k.outline = (b.kind id).outline) :
    Ready o hooks bound (b.setKind id k) waiting around :=
  ⟨h.valid.setKind hid hk, h.opens, h.unseen⟩

theorem Ready.start (h : Ready o hooks (bound + 1) b waiting around) (hd : d ∈ o.descriptors)
    (hn : d ∉ b.types) (hs : Suits o hooks d k)
    (hr : ∀ r members, k = .record r members → r = b.recordCount) :
    Ready o hooks bound (b.start d name k) (b.nodes.size :: waiting)
      (inner o hooks around d) := by
  have hnew : ∀ id, (d, id) ∉ b.known := fun id hid => hn (mem_types.2 ⟨id, hid⟩)
  have hlt := o.unseen_lt hd hn
  refine ⟨h.valid.start hnew hs hr, fun c => ?_, ?_⟩
  · have hfold : ∀ {i}, i ∈ b.folding → i ≠ b.nodes.size := fun hi =>
      Nat.ne_of_lt (h.valid.waits _ ((h.valid.folding _).1 hi).1)
    have hold : (∃ i ∈ b.folding, (c, i) ∈ (b.start d name k).known) ↔ c ∈ around := by
      rw [h.opens c]
      constructor
      · rintro ⟨i, hi, hc⟩
        rcases List.mem_cons.1 hc with hc | hc
        · exact absurd (Prod.mk.inj hc).2 (hfold hi)
        · exact ⟨i, hi, hc⟩
      · rintro ⟨i, hi, hc⟩
        exact ⟨i, hi, List.mem_cons_of_mem _ hc⟩
    unfold inner
    by_cases hu : IsUnion o hooks d
    · have hk : k.isUnion = true := hs.isUnion_iff.2 hu
      rw [if_pos hu, List.mem_cons, ← hold]
      constructor
      · rintro (rfl | ⟨i, hi, hc⟩)
        · exact ⟨b.nodes.size, by simp [Builder.start, hk], by simp [Builder.start]⟩
        · exact ⟨i, by simp [Builder.start, hk, hi], hc⟩
      · rintro ⟨i, hi, hc⟩
        have hi : i = b.nodes.size ∨ i ∈ b.folding := by simpa [Builder.start, hk] using hi
        rcases hi with rfl | hi
        · rcases List.mem_cons.1 hc with hc | hc
          · exact Or.inl (Prod.mk.inj hc).1
          · exact absurd rfl (Nat.ne_of_lt (h.valid.lt hc))
        · exact Or.inr ⟨i, hi, hc⟩
    · have hk : k.isUnion = false := by
        rw [Bool.eq_false_iff]
        exact fun hk => hu (hs.isUnion_iff.1 hk)
      rw [if_neg hu, ← hold]
      simp [Builder.start, hk]
  · have := h.unseen
    change o.unseen (d :: b.types) < bound
    omega

/-! ### Where folding fails -/

omit [DecidableEq D] in
theorem foldLeaves_error {X : NodeId → Prop} {leaves : List NodeId} {e : CompileError}
    (hb : b.BothBoolean) (h : b.Gathers X folded) (hX : ∀ y, X y → y < b.nodes.size)
    (hlt : ∀ y ∈ leaves, y < b.nodes.size)
    (hf : foldLeaves union b folded leaves = (.error e, b')) :
    ∃ x ∈ leaves, ∃ y, (X y ∨ y ∈ leaves) ∧ y ≠ x ∧ b.isConversion x ∧ b.isConversion y := by
  induction leaves generalizing b folded X with
  | nil => simp [foldLeaves] at hf
  | cons x xs ih =>
    simp only [foldLeaves] at hf
    split at hf
    · rename_i e' b₁ he
      obtain ⟨hx, hconv, y, hy, hyc⟩ := foldLeaf_error he
      refine ⟨x, by simp, y, Or.inl ?_, fun hyx => hx (hyx ▸ hy), hconv, hyc⟩
      rcases h.sound y hy with hy | ⟨hboth, -⟩
      · exact hy
      · simp [isConversion, hb y hboth] at hyc
    · rename_i folded₁ b₁ he
      have hfolds := folds_of_foldLeaf he
      have hsame : ∀ {y}, y < b.nodes.size → b₁.isConversion y = b.isConversion y := by
        intro y hy
        rw [isConversion, isConversion, hfolds.grows.kind hy]
      have hX' : ∀ y, (X y ∨ y = x) → y < b.nodes.size := by
        rintro y (hy | rfl)
        · exact hX y hy
        · exact hlt y (by simp)
      have hsize := hfolds.grows.size
      obtain ⟨x', hx', y, hy, hne, hxc, hyc⟩ := ih (hfolds.bothBoolean hb)
        (foldLeaf_gathers hb h hX he) (fun y hy => Nat.lt_of_lt_of_le (hX' y hy) hsize)
        (fun y hy => Nat.lt_of_lt_of_le (hlt y (by simp [hy])) hsize) hf
      have hylt : y < b.nodes.size := hy.elim (hX' y) fun hy => hlt y (by simp [hy])
      rw [hsame (hlt x' (by simp [hx']))] at hxc
      rw [hsame hylt] at hyc
      refine ⟨x', by simp [hx'], y, ?_, hne, hxc, hyc⟩
      rcases hy with (hy | rfl) | hy
      · exact Or.inl hy
      · exact Or.inr (by simp)
      · exact Or.inr (by simp [hy])

/-- Whether something that is left of some types has two conversions. -/
def Torn (o : Oracle D) (hooks : List (Hook D)) (ms : List D) : Prop :=
  ∃ l l', (∃ m ∈ ms, Leaf o hooks m l) ∧ (∃ m ∈ ms, Leaf o hooks m l') ∧
    (hook? hooks l).isSome ∧ (hook? hooks l').isSome ∧ l ≠ l'

theorem Torn.not_fine (hu : IsUnion o hooks d) (h : Torn o hooks ms)
    (hms : ∀ m ∈ ms, m ∈ o.unionMembers d) : ¬ Fine o hooks d := by
  obtain ⟨l, l', ⟨m, hm, hl⟩, ⟨m', hm', hl'⟩, hh, hh', hne⟩ := h
  exact fun hf => hne (hf.single (.member hu (hms m hm) hl) (.member hu (hms m' hm') hl') hh hh')

theorem hooked_of_isConversion (h : Valid o hooks b waiting) (hd : (d, x) ∈ b.known)
    (hc : b.isConversion x) : (hook? hooks d).isSome := by
  unfold isConversion at hc
  split at hc
  · rename_i n hk
    obtain ⟨k, hh, -⟩ := (hk ▸ h.suits hd).of_conversion
    rw [hh]
    rfl
  · cases hc

theorem torn_of_conversions (h : Valid o hooks b waiting) {y : NodeId}
    (hx : LeafNode o hooks b ms x) (hy : LeafNode o hooks b ms y) (hne : y ≠ x)
    (hxc : b.isConversion x) (hyc : b.isConversion y) : Torn o hooks ms := by
  obtain ⟨m, hm, l, hl, hlx⟩ := hx
  obtain ⟨m', hm', l', hl', hly⟩ := hy
  refine ⟨l, l', ⟨m, hm, hl⟩, ⟨m', hm', hl'⟩, hooked_of_isConversion h hlx hxc,
    hooked_of_isConversion h hly hyc, ?_⟩
  rintro rfl
  exact hne (h.node_unique hly hlx)

/-- Folding in a member fails if it is a union that is being folded, or at a second conversion. -/
theorem foldMember_error {e : CompileError} (h : Valid o hooks b waiting)
    (hm : (m, x) ∈ b.known) (hg : Gathered o hooks b ms folded)
    (hf : foldMember union b folded x = (.error e, b')) :
    (IsUnion o hooks m ∧ x ∈ b.folding) ∨ Torn o hooks (ms ++ [m]) := by
  have hX : ∀ {ms y}, LeafNode o hooks b ms y → y < b.nodes.size := by
    rintro ms y ⟨-, -, l, -, hl⟩
    exact h.lt hl
  rcases h.foldMember_cases hm union folded with
    ⟨hu, hopen, -⟩ | ⟨members, hu, -, hw, hk, heq⟩ | ⟨hu, heq⟩
  · exact Or.inl ⟨hu, hopen⟩
  · right
    rw [heq] at hf
    obtain ⟨-, hfin⟩ := h.of_union hm hw hk
    obtain ⟨x', hx', y, hy, hne, hxc, hyc⟩ := foldLeaves_error h.both hg.gathers
      (fun _ => hX) (hfin.lt h) hf
    have hleaf : ∀ {z}, z ∈ members → b.isConversion z → LeafNode o hooks b (ms ++ [m]) z := by
      intro z hz hzc
      rw [leafNode_append, leafNode_union hu]
      rcases hfin.gathers.sound z hz with hz | ⟨hboth, -⟩
      · exact Or.inr hz
      · simp [isConversion, h.both z hboth] at hzc
    refine torn_of_conversions h (hleaf hx' hxc) ?_ hne hxc hyc
    rcases hy with hy | hy
    · exact leafNode_append.2 (Or.inl hy)
    · exact hleaf hy hyc
  · right
    rw [heq] at hf
    obtain ⟨hx, hxc, y, hy, hyc⟩ := foldLeaf_error hf
    refine torn_of_conversions h (leafNode_append.2 (Or.inr ((leafNode_leaf hu h hm).2 rfl))) ?_
      (fun hyx => hx (hyx ▸ hy)) hxc hyc
    rcases hg.gathers.sound y hy with hy | ⟨hboth, -⟩
    · exact leafNode_append.2 (Or.inl hy)
    · simp [isConversion, h.both y hboth] at hyc

theorem not_mem_around (h : Valid o hooks b waiting) (ho : b.Opens around)
    (hm : (m, x) ∈ b.known) (hu : IsUnion o hooks m)
    (hf : foldMember union b folded x = (.ok folded', b')) : m ∉ around := by
  intro hmem
  obtain ⟨i, hi, hmi⟩ := (ho m).1 hmem
  obtain rfl := h.node_unique hmi hm
  rcases h.foldMember_cases hm union folded with
    ⟨-, -, name, heq⟩ | ⟨members, -, hopen, -⟩ | ⟨hn, -⟩
  · cases heq.symm.trans hf
  · exact hopen hi
  · exact hn hu

/-! ### Parts -/

theorem resolveMembers_explores (hr : Resolves o hooks resolve)
    (he : Explores o hooks bound resolve) (hd : d ∈ b.types) (hu : IsUnion o hooks d)
    (h : Ready o hooks bound b waiting around) (hl : ∀ c ∈ ds, c ∈ o.descriptors)
    (hg : Gathered o hooks b ms folded) (hms : ∀ c ∈ ms ++ ds, c ∈ o.unionMembers d) :
    Outcome o hooks (∀ c ∈ ds, IsUnion o hooks c → c ∉ around) around b.types ds
      (resolveMembers resolve union b folded ds) := by
  induction ds generalizing b folded ms with
  | nil => exact ⟨by simp, .nil⟩
  | cons c ds ih =>
    have hwalk := he h (hl c (by simp))
    rw [resolveMembers]
    cases hres : resolve b c with
    | mk r b₁ =>
      rw [hres] at hwalk
      cases r with
      | error e => exact hwalk.fail
      | ok x =>
        obtain ⟨-, hwalk⟩ := hwalk
        obtain ⟨ha, hx⟩ := hr h.valid hres
        have h₁ := h.advances ha
        have hd₁ := types_advances ha hd
        have hg₁ := hg.later h.valid ha.valid.types ha.later
        dsimp only
        cases hfold : foldMember union b₁ folded x with
        | mk r b₂ =>
          cases r with
          | error e =>
            intro hP seen' hw
            obtain ⟨s, hs, hds⟩ := hw.head
            obtain rfl := hwalk.unique hs
            -- the member is a union that is still open, or a second conversion comes with it
            rcases foldMember_error h₁.valid hx hg₁ hfold with ⟨hcu, hopen⟩ | ht
            · exact absurd ((h₁.opens c).2 ⟨x, hopen, hx⟩) (hP c (by simp) hcu)
            · refine ⟨d, hds.mono hd₁, ht.not_fine hu fun m hm => hms m ?_⟩
              rcases List.mem_append.1 hm with hm | hm
              · exact List.mem_append_left _ hm
              · rw [List.mem_singleton.1 hm]
                simp
          | ok folded₂ =>
            have hfolds := folds_of_foldMember hfold
            have htypes : b₂.types = b₁.types := by rw [types, types, hfolds.known]
            obtain ⟨-, hg₂⟩ := foldMember_gathered h₁.valid hx hg₁ hfold
            have hrest := ih (htypes ▸ hd₁) (h₁.advances (hfolds.advances h₁.valid))
              (fun c' hc' => hl c' (by simp [hc'])) hg₂ (by simpa using hms)
            rw [htypes] at hrest
            have hc : IsUnion o hooks c → c ∉ around := fun hcu =>
              not_mem_around h₁.valid h₁.opens hx hcu hfold
            refine (hrest.cons hwalk).congr ?_
            rw [List.forall_mem_cons]
            exact ⟨fun hds => ⟨hc, hds⟩, fun hds => hds.2⟩

theorem resolveFields_explores (hr : Resolves o hooks resolve)
    (he : Explores o hooks bound resolve) {record : RecordId} {fs : List (String × D)}
    {members : List (String × NodeId)} (h : Ready o hooks bound b waiting around)
    (hid : id ∈ waiting) (hk : b.kind id = .record record members)
    (hl : ∀ f ∈ fs, f.2 ∈ o.descriptors) :
    Outcome o hooks True around b.types (fs.map (·.2))
      (resolveFields resolve id record b members fs) := by
  induction fs generalizing b members with
  | nil => exact ⟨trivial, .nil⟩
  | cons f fs ih =>
    obtain ⟨name, d⟩ := f
    have hwalk := he h (hl (name, d) (by simp))
    rw [List.map_cons, resolveFields]
    cases hres : resolve b d with
    | mk r b₁ =>
      rw [hres] at hwalk
      cases r with
      | error e => exact hwalk.fail
      | ok x =>
        obtain ⟨ha, -⟩ := hr h.valid hres
        have hk₁ : b₁.kind id = .record record members := by
          rw [ha.grows.kind (h.valid.waits id hid), hk]
        have h₂ := (h.advances ha).setKind hid
          (show (NodeKind.record record (members ++ [(name, x)])).outline = _ by rw [hk₁]; rfl)
        exact (ih h₂ (kind_setKind_self (ha.valid.waits id hid))
          fun f hf => hl f (by simp [hf])).cons hwalk.2

/-! ### Types -/

theorem Outcome.leaf (hn : d ∉ b.types) (hs : Suits o hooks d k) (hk : k.isLeaf) :
    Outcome o hooks True around b.types [d] (.ok id, b.start d name k) := by
  have hu : ¬ IsUnion o hooks d := fun hu => by
    have := hs.isUnion_iff.2 hu
    rw [isUnion_leaf hk] at this
    cases this
  refine ⟨trivial, .new hn (fun h => absurd h hu) ?_ .nil⟩
  rw [children_of_leaf hs hk]
  exact .nil

theorem array_explores (he : Explores o hooks bound resolve)
    (h : Ready o hooks (bound + 1) b waiting around) (hd : d ∈ o.descriptors) (hn : d ∉ b.types)
    (hh : hook? hooks d = none) (ht : o.trait? d = some .array) {element : D}
    (hel : o.arrayElement d = some element) (hl : element ∈ o.descriptors) :
    Outcome o hooks (IsUnion o hooks d → ∀ c ∈ children o hooks d, IsUnion o hooks c →
        c ∉ inner o hooks around d) (inner o hooks around d) (d :: b.types) (children o hooks d)
      (resolve (b.start d name (.array none)) element) := by
  have hu : ¬ IsUnion o hooks d := fun hu => by simp [hu.2] at ht
  have hstart : Ready o hooks bound (b.start d name (.array none)) _ _ :=
    h.start hd hn (.array hh ht) (by rintro r members ⟨⟩)
  rw [children_of_array hh ht hel]
  exact (he hstart hl).congr ⟨fun _ h => absurd h hu, fun _ => trivial⟩

theorem record_explores (hr : Resolves o hooks resolve) (he : Explores o hooks bound resolve)
    (h : Ready o hooks (bound + 1) b waiting around) (hd : d ∈ o.descriptors) (hn : d ∉ b.types)
    (hh : hook? hooks d = none) (ht : o.trait? d = some .record)
    (hl : ∀ f ∈ o.recordFields d, f.2 ∈ o.descriptors) :
    Outcome o hooks (IsUnion o hooks d → ∀ c ∈ children o hooks d, IsUnion o hooks c →
        c ∉ inner o hooks around d) (inner o hooks around d) (d :: b.types) (children o hooks d)
      (resolveFields resolve b.nodes.size b.recordCount
        (b.start d name (.record b.recordCount [])) [] (o.recordFields d)) := by
  have hu : ¬ IsUnion o hooks d := fun hu => by simp [hu.2] at ht
  have hstart : Ready o hooks bound (b.start d name (.record b.recordCount [])) _ _ :=
    h.start hd hn (.record hh ht) (by rintro r members ⟨⟩; rfl)
  have hm := resolveFields_explores hr he hstart List.mem_cons_self
    kind_start_self hl
  rw [children_of_record hh ht]
  exact hm.congr ⟨fun _ h => absurd h hu, fun _ => trivial⟩

theorem union_explores (hr : Resolves o hooks resolve) (he : Explores o hooks bound resolve)
    (h : Ready o hooks (bound + 1) b waiting around) (hd : d ∈ o.descriptors) (hn : d ∉ b.types)
    (hu : IsUnion o hooks d) (hl : ∀ c ∈ o.unionMembers d, c ∈ o.descriptors) :
    Outcome o hooks (IsUnion o hooks d → ∀ c ∈ children o hooks d, IsUnion o hooks c →
        c ∉ inner o hooks around d) (inner o hooks around d) (d :: b.types) (children o hooks d)
      (resolveMembers resolve b.nodes.size (b.start d name (.union [])) [] (o.unionMembers d)) := by
  have hstart : Ready o hooks bound (b.start d name (.union [])) _ _ :=
    h.start hd hn (.union hu) (by rintro r members ⟨⟩)
  rw [children_of_union hu]
  exact (resolveMembers_explores hr he (by simp [start, types]) hu hstart hl (gathered_nil _)
    (by simp)).congr ⟨fun h _ => h, fun h => h hu⟩

/-- Whether a call succeeds, and which types have nodes then, is told by the walk. -/
theorem resolveWithin_explores (hl : o.Listed hooks) (bound : Nat) :
    Explores o hooks bound (resolveWithin o hooks bound) := by
  induction bound with
  | zero =>
    intro b waiting around d h
    exact absurd h.unseen (Nat.not_lt_zero _)
  | succ bound ih =>
    intro b waiting around d h hd
    have hr : Resolves o hooks (resolveWithin o hooks bound) := resolveWithin_resolves bound
    have hnew (hk : b.known.lookup d = none) : d ∉ b.types := fun hmem => by
      obtain ⟨id, hid⟩ := mem_types.1 hmem
      exact lookup_eq_none.1 hk id hid
    have hchildren := hl d hd
    cases way o hooks b d with
    | @known id hk =>
      rw [resolveWithin_known hk]
      exact ⟨trivial, .old (mem_types.2 ⟨id, (lookup_eq_some h.valid).1 hk⟩) .nil⟩
    | single hk hs =>
      obtain ⟨k, hs, hleaf⟩ | ⟨hh, hrefused⟩ | ⟨hh, ht, he⟩ := hs.cases
      · rw [resolveWithin_leaf hk hs hleaf]
        exact .leaf (hnew hk) hs hleaf
      · obtain ⟨reason, heq⟩ := resolveWithin_refused o hk hh hrefused
        rw [heq]
        exact .not_fine fun hf => by simp [hf.refuses_eq_false hh] at hrefused
      · rw [resolveWithin_noElement hk hh ht he]
        exact .not_fine fun hf => by simpa [he] using hf.element hh ht
    | array hk hh ht he =>
      rw [resolveWithin_array hk hh ht he]
      rw [children_of_array hh ht he] at hchildren
      exact (array_explores ih h hd (hnew hk) hh ht he (hchildren _ List.mem_cons_self)).sealed
        (hnew hk) fun _ _ => rfl
    | record hk hh ht =>
      rw [resolveWithin_record hk hh ht]
      rw [children_of_record hh ht] at hchildren
      exact (record_explores hr ih h hd (hnew hk) hh ht
        fun f hf => hchildren f.2 (List.mem_map_of_mem hf)).sealed (hnew hk) fun _ _ => rfl
    | union hk hu =>
      rw [resolveWithin_union hk hu]
      rw [children_of_union hu] at hchildren
      exact (union_explores hr ih h hd (hnew hk) hu hchildren).sealed (hnew hk) fun _ _ => rfl

/-- Types that have nodes with all their parts are in order. -/
theorem Valid.fine (h : Valid o hooks b []) (hd : (d, id) ∈ b.known) : Fine o hooks d := by
  have hs := h.suits hd
  have hfin := h.finished hd (by simp)
  generalize b.kind id = k at hs hfin
  refine ⟨fun hh => ?_, fun {t} hh ht hl => ?_, fun hh ht => ?_, fun {l l'} hl hl' hc hc' => ?_⟩
  · cases hs with
    | conversion hk => simp [hh] at hk
    | simple _ ht => rw [ht]; rfl
    | literal _ ht => rw [ht]; rfl
    | array _ ht => rw [ht]; rfl
    | union hu => rw [hu.2]; rfl
    | record _ ht => rw [ht]; rfl
  · cases hs with
    | conversion hk => simp [hh] at hk
    | simple _ ht' hk =>
      obtain rfl := Option.some.inj (ht.symm.trans ht')
      cases t <;> simp [Trait.kind?, Trait.isLiteral] at hk hl
    | literal _ _ _ hv => rw [hv]; rfl
    | array _ ht' =>
      obtain rfl := Option.some.inj (ht.symm.trans ht')
      cases hl
    | union hu =>
      obtain rfl := Option.some.inj (ht.symm.trans hu.2)
      cases hl
    | record _ ht' =>
      obtain rfl := Option.some.inj (ht.symm.trans ht')
      cases hl
  · obtain ⟨element, rfl⟩ := hs.eq_array hh ht
    obtain ⟨-, y, -, hy, -⟩ := hfin
    rw [hy]
    rfl
  · by_cases hu : IsUnion o hooks d
    · obtain ⟨members, rfl⟩ := hs.eq_union hu
      have hg : Gathered o hooks b (o.unionMembers d) members := hfin
      -- each converted leaf has a member, and no two members are conversions
      have hnode : ∀ {l}, Leaf o hooks d l → (hook? hooks l).isSome →
          ∃ y ∈ members, (l, y) ∈ b.known ∧ b.isConversion y := by
        intro l hl hc
        obtain ⟨m, hm, hml⟩ := (leaf_iff hu).1 hl
        obtain ⟨y, hy⟩ := hg.known m hm l hml
        obtain ⟨n, hn⟩ := (h.suits hy).eq_conversion hc
        rcases hg.gathers.complete y ⟨m, hm, l, hml, hy⟩ with hmem | ⟨hb, -⟩
        · exact ⟨y, hmem, hy, by simp [isConversion, hn]⟩
        · simp [isBooleanPart, isBoolean, booleanLiteral?, hn] at hb
      obtain ⟨y, hy, hly, hyc⟩ := hnode hl hc
      obtain ⟨y', hy', hly', hyc'⟩ := hnode hl' hc'
      obtain rfl := hg.gathers.single y hy y' hy' hyc hyc'
      exact h.type_unique hly hly'
    · rw [(leaf_self_iff hu).1 hl, (leaf_self_iff hu).1 hl']

end

/-- Resolving requests in order is walking their types. -/
theorem resolveRoots_walks {b b' : Builder D} {requests : List (Request D)}
    {roots : List Model.Root} (hl : o.Listed hooks)
    (h : Ready o hooks (o.descriptors.length + 2) b [] [])
    (hd : ∀ q ∈ requests, q.root ∈ o.descriptors)
    (hf : resolveRoots o hooks b requests = .ok (roots, b')) :
    Walks o hooks [] b.types (requests.map (·.root)) b'.types := by
  induction requests generalizing b roots with
  | nil =>
    obtain ⟨rfl, rfl⟩ : [] = roots ∧ b = b' := by simpa [resolveRoots] using hf
    exact .nil
  | cons q qs ih =>
    have hwalk := resolveWithin_explores hl _ h (hd q (by simp))
    simp only [resolveRoots, resolve] at hf
    split at hf
    · simp at hf
    · rename_i id b₁ hr
      rw [hr] at hwalk
      obtain ⟨ha, -⟩ := resolveWithin_resolves _ h.valid hr
      obtain ⟨⟨roots', b₂⟩, hrs, hf⟩ := bind_eq_ok.1 hf
      cases hf
      exact hwalk.2.cons (ih (h.advances ha) (fun q hq => hd q (by simp [hq])) hrs)

/-- Requests whose walk is possible are resolved, if what is on the way is in order. -/
theorem exists_resolveRoots {b : Builder D} {requests : List (Request D)} {seen : List D}
    (hl : o.Listed hooks) (h : Ready o hooks (o.descriptors.length + 2) b [] [])
    (hd : ∀ q ∈ requests, q.root ∈ o.descriptors)
    (hw : Walks o hooks [] b.types (requests.map (·.root)) seen)
    (hfine : ∀ d ∈ seen, Fine o hooks d) :
    ∃ roots b', resolveRoots o hooks b requests = .ok (roots, b') := by
  induction requests generalizing b with
  | nil => exact ⟨[], b, rfl⟩
  | cons q qs ih =>
    have hwalk := resolveWithin_explores hl _ h (hd q (by simp))
    obtain ⟨s, hq, hqs⟩ := hw.head
    simp only [resolveRoots, resolve]
    cases hr : resolveWithin o hooks (o.descriptors.length + 2) b q.root with
    | mk r b₁ =>
      rw [hr] at hwalk
      cases r with
      | error e =>
        obtain ⟨d, hds, hnf⟩ := hwalk trivial s hq
        exact absurd (hfine d (hqs.mono hds)) hnf
      | ok id =>
        obtain ⟨ha, -⟩ := resolveWithin_resolves _ h.valid hr
        obtain rfl := hwalk.2.unique hq
        obtain ⟨roots, b', hrs⟩ := ih (h.advances ha) (fun q hq => hd q (by simp [hq])) hqs
        exact ⟨_, b', by simp only [hrs]; rfl⟩

theorem ready_empty : Ready o hooks (o.descriptors.length + 2) (empty : Builder D) [] [] := by
  refine ⟨valid_empty, fun d => ?_, ?_⟩
  · simp [empty]
  · have := List.length_filter_le (fun d => !([] : List D).contains d) o.descriptors
    change (o.descriptors.filter fun d => !([] : List D).contains d).length < _
    omega

end Builder

end Conform
