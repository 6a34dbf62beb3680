import Mathlib.Data.Set.Card
import Conform.Proofs.Builder.Returns

/-! Resolving ends wherever a type leads to finitely many others, however they lead back to each
other. Each call for a new type leaves one type less without a node. -/

namespace Conform.Builder

variable {D : Type} [DecidableEq D] {o : Oracle D} {hooks : List (Hook D)} {b b' : Builder D}
  {d : D} {depth : Nat}

/-! ### Types without a node -/

section

variable {S : Finset D} {waiting folded : List NodeId} {ms ds : List D} {union : NodeId}
  {bound : Nat} {resolve : Builder D → D → Result D NodeId}

def missing (S : Finset D) (b : Builder D) : Nat := (S \ b.types.toFinset).card

theorem missing_le (h : b.types ⊆ b'.types) : missing S b' ≤ missing S b :=
  Finset.card_le_card (Finset.sdiff_subset_sdiff (Finset.Subset.refl S)
    (fun _ hd => List.mem_toFinset.2 (h (List.mem_toFinset.1 hd))))

theorem missing_start_lt {name : String} {k : NodeKind} (hd : d ∈ S)
    (hl : b.known.lookup d = none) : missing S (b.start d name k) < missing S b := by
  have hn : d ∉ b.types := fun hmem => by
    obtain ⟨id, hid⟩ := mem_types.1 hmem
    exact lookup_eq_none.1 hl id hid
  refine Finset.card_lt_card (Finset.ssubset_iff_of_subset ?_ |>.2 ⟨d, ?_, ?_⟩)
  · refine Finset.sdiff_subset_sdiff (Finset.Subset.refl S) fun c hc => ?_
    exact List.mem_toFinset.2 (List.mem_cons_of_mem _ (List.mem_toFinset.1 hc))
  · simpa [hd] using hn
  · simp [start, types]

/-- Whether a call comes to what resolving its type comes to, where few enough types have no
node. -/
def Settles (o : Oracle D) (hooks : List (Hook D)) (S : Finset D) (bound : Nat)
    (resolve : Builder D → D → Result D NodeId) : Prop :=
  ∀ ⦃b : Builder D⦄ ⦃waiting : List NodeId⦄ ⦃d : D⦄, Valid o.lenient hooks b waiting →
    missing S b < bound → d ∈ S → Returns o hooks 1 b d (resolve b d)

theorem resolveMembers_returns (hr : Resolves o.lenient hooks resolve)
    (hs : Settles o hooks S bound resolve) (h : Valid o.lenient hooks b waiting)
    (hg : Gathered o.lenient hooks b ms folded) (hb : missing S b < bound)
    (hds : ∀ d ∈ ds, d ∈ S) :
    ReturnsMembers o hooks 1 union b folded ds (resolveMembers resolve union b folded ds) := by
  induction ds generalizing b folded ms with
  | nil => exact .nil
  | cons d ds ih =>
    have hd := hs h hb (hds d List.mem_cons_self)
    rw [resolveMembers]
    rcases hres : resolve b d with ⟨e | x, b₁⟩
    · rw [hres] at hd
      exact .failed hd
    · rw [hres] at hd
      obtain ⟨ha, hx⟩ := hr h hres
      have hg₁ := hg.later h ha.valid.types ha.later
      have hfold : foldNested union 1 b₁ folded x = some (foldMember union b₁ folded x) :=
        ha.valid.foldNested_eq hg₁ 0
      dsimp only
      rcases hm : foldMember union b₁ folded x with ⟨e | folded₁, b₂⟩
      · exact .unfolded hd (hfold.trans (congrArg some hm))
      · obtain ⟨hfolds, hg₂⟩ := foldMember_gathered ha.valid hx hg₁ hm
        have hb₂ := missing_le (S := S) (types_advances (ha.trans (hfolds.advances ha.valid)))
        exact .cons hd (hfold.trans (congrArg some hm)) (ih (ha.valid.folds hfolds) hg₂
          (Nat.lt_of_le_of_lt hb₂ hb) fun c hc => hds c (List.mem_cons_of_mem _ hc))

theorem resolveFields_returns (hr : Resolves o.lenient hooks resolve)
    (hs : Settles o hooks S bound resolve) {id : NodeId} {record : RecordId}
    {done : List (String × NodeId)} {fs : List (String × D)}
    (h : Valid o.lenient hooks b waiting) (hid : id ∈ waiting)
    (hk : b.kind id = .record record done) (hb : missing S b < bound)
    (hfs : ∀ f ∈ fs, f.2 ∈ S) :
    ReturnsFields o hooks 1 id record b done fs (resolveFields resolve id record b done fs) := by
  induction fs generalizing b done with
  | nil => exact .nil
  | cons f fs ih =>
    obtain ⟨name, d⟩ := f
    have hd := hs h hb (hfs (name, d) List.mem_cons_self)
    rw [resolveFields]
    rcases hres : resolve b d with ⟨e | x, b₁⟩
    · rw [hres] at hd
      exact .failed hd
    · rw [hres] at hd
      obtain ⟨ha, -⟩ := hr h hres
      obtain ⟨h₂, hk₂⟩ := ha.field h hid hk (done ++ [(name, x)])
      have hb₁ : missing S b₁ < bound := Nat.lt_of_le_of_lt (missing_le (types_advances ha)) hb
      exact .cons hd (ih h₂ hk₂ hb₁ fun f hf => hfs f (List.mem_cons_of_mem _ hf))

/-- A depth is large enough where it is more than the number of types that have no node. -/
theorem resolveWithin_settles (hS : ∀ d ∈ S, ∀ c ∈ children o hooks d, c ∈ S) (depth : Nat) :
    Settles o hooks S depth (resolveWithin o hooks depth) := by
  induction depth with
  | zero => exact fun b _ d _ hb => absurd hb (Nat.not_lt_zero _)
  | succ depth ih =>
    intro b waiting d h hb hd
    have hlt {k : NodeKind} (hl : b.known.lookup d = none) :
        missing S (b.start d (o.typeName d) k) < depth :=
      Nat.lt_of_lt_of_le (missing_start_lt hd hl) (Nat.le_of_lt_succ hb)
    cases way o hooks b d with
    | known hl =>
      rw [resolveWithin_known hl]
      exact .known hl
    | single hl hsingle =>
      obtain ⟨res, k, heq⟩ := resolveWithin_single hl hsingle
      rw [(heq depth).trans (heq 0).symm]
      exact .single hl hsingle
    | @array element hl hh ht he =>
      rw [resolveWithin_array hl hh ht he]
      exact .array hl hh ht he (ih (h.start_lenient hl (.array hh ht) (by simp)) (hlt hl)
        (hS d hd element (by simp [children_of_array hh ht he])))
    | record hl hh ht =>
      rw [resolveWithin_record hl hh ht]
      exact .record hl hh ht (resolveFields_returns (resolveWithin_lenient depth) ih
        (h.start_lenient hl (.record hh ht) (by rintro r members ⟨⟩; rfl)) List.mem_cons_self
        kind_start_self (hlt hl)
        fun f hf => hS d hd f.2 (children_of_record hh ht ▸ List.mem_map_of_mem hf))
    | union hl hu =>
      rw [resolveWithin_union hl hu]
      exact .union hl hu (resolveMembers_returns (resolveWithin_lenient depth) ih
        (h.start_lenient hl (.union hu) (by simp)) (gathered_nil _) (hlt hl)
        fun c hc => hS d hd c (children_of_union hu ▸ hc))

end

/-! ### Nodes that are made -/

/-- Whether a builder comes from another one by nodes for some types, each with one, and by the node
of both booleans if there was none. -/
structure Adds (P : D → Prop) (b b' : Builder D) : Prop where
  known : ∃ new, b'.known = new ++ b.known ∧ ∀ p ∈ new, P p.1
  size : b'.nodes.size + b.known.length + b.bothBooleans.toList.length =
    b.nodes.size + b'.known.length + b'.bothBooleans.toList.length

section

variable {P Q : D → Prop} {b'' : Builder D} {id : NodeId} {k : NodeKind}
  {resolve : Builder D → D → Result D NodeId}

omit [DecidableEq D] in
theorem Adds.refl (b : Builder D) : Adds P b b := ⟨⟨[], rfl, by simp⟩, rfl⟩

omit [DecidableEq D] in
theorem Adds.trans (h : Adds P b b') (h' : Adds P b' b'') : Adds P b b'' := by
  obtain ⟨new, hnew, hP⟩ := h.known
  obtain ⟨new', hnew', hP'⟩ := h'.known
  refine ⟨⟨new' ++ new, by rw [hnew', hnew, List.append_assoc], fun p hp => ?_⟩, ?_⟩
  · exact (List.mem_append.1 hp).elim (hP' p) (hP p)
  · have := h.size
    have := h'.size
    omega

omit [DecidableEq D] in
theorem Adds.mono (h : Adds P b b') (hPQ : ∀ e, P e → Q e) : Adds Q b b' :=
  have ⟨new, hnew, hP⟩ := h.known
  ⟨⟨new, hnew, fun p hp => hPQ p.1 (hP p hp)⟩, h.size⟩

omit [DecidableEq D] in
theorem Adds.start (name : String) (hd : P d) : Adds P b (b.start d name k) := by
  refine ⟨⟨[(d, b.nodes.size)], rfl, by simpa using hd⟩, ?_⟩
  simp only [Builder.start, Array.size_push, List.length_cons]
  omega

omit [DecidableEq D] in
theorem Adds.setKind : Adds P b (b.setKind id k) := ⟨⟨[], rfl, by simp⟩, by simp [Builder.setKind]⟩

omit [DecidableEq D] in
theorem Adds.sealUnion {members : List NodeId} : Adds P b (sealUnion id members b) :=
  ⟨⟨[], rfl, by simp⟩, by simp [Builder.sealUnion, Builder.setKind, close]⟩

omit [DecidableEq D] in
theorem Adds.both (b : Builder D) : Adds P b b.both.2 := by
  refine ⟨⟨[], known_both, by simp⟩, ?_⟩
  rw [known_both, bothBooleans_both]
  unfold Builder.both
  cases hb : b.bothBooleans <;> simp [addNode]
  omega

omit [DecidableEq D] in
theorem Adds.folds (h : b.Folds b') : Adds P b b' := by
  rcases h with rfl | rfl
  · exact .refl b'
  · exact .both b

omit [DecidableEq D] in
theorem Adds.sealed {α : Type} {r : Result D α} {parts : α → Builder D → Builder D}
    (h : Adds P b r.2) (hparts : ∀ a b', Adds P b' (parts a b')) :
    Adds P b (sealed id parts r).2 := by
  rcases r with ⟨e | a, b'⟩
  · exact h
  · exact h.trans (hparts a b')

omit [DecidableEq D] in
theorem resolveMembers_adds {union : NodeId} {folded : List NodeId} {ds : List D}
    (hr : ∀ b, ∀ d ∈ ds, Adds P b (resolve b d).2) :
    Adds P b (resolveMembers resolve union b folded ds).2 := by
  induction ds generalizing b folded with
  | nil => exact .refl b
  | cons d ds ih =>
    have hd := hr b d List.mem_cons_self
    rw [resolveMembers]
    rcases hres : resolve b d with ⟨e | x, b₁⟩
    · rw [hres] at hd
      exact hd
    · rw [hres] at hd
      dsimp only
      rcases hm : foldMember union b₁ folded x with ⟨e | folded₁, b₂⟩
      · exact hd.trans (.folds (folds_of_foldMember hm))
      · exact (hd.trans (.folds (folds_of_foldMember hm))).trans
          (ih fun b c hc => hr b c (List.mem_cons_of_mem _ hc))

omit [DecidableEq D] in
theorem resolveFields_adds {record : RecordId} {done : List (String × NodeId)}
    {fs : List (String × D)} (hr : ∀ b, ∀ f ∈ fs, Adds P b (resolve b f.2).2) :
    Adds P b (resolveFields resolve id record b done fs).2 := by
  induction fs generalizing b done with
  | nil => exact .refl b
  | cons f fs ih =>
    obtain ⟨name, d⟩ := f
    have hd := hr b (name, d) List.mem_cons_self
    rw [resolveFields]
    rcases hres : resolve b d with ⟨e | x, b₁⟩
    · rw [hres] at hd
      exact hd
    · rw [hres] at hd
      exact (hd.trans .setKind).trans (ih fun b f hf => hr b f (List.mem_cons_of_mem _ hf))

/-- Resolving a type makes nodes for types that it leads to, and for each only one. -/
theorem resolveWithin_adds (depth : Nat) (b : Builder D) (d : D) :
    Adds (Reaches o hooks d) b (resolveWithin o hooks depth b d).2 := by
  induction depth generalizing b d with
  | zero => exact .refl b
  | succ depth ih =>
    have hself : Reaches o hooks d d := .refl
    have hchild {c : D} (hc : c ∈ children o hooks d) (b : Builder D) :
        Adds (Reaches o hooks d) b (resolveWithin o hooks depth b c).2 :=
      (ih b c).mono fun _ he => .head hc he
    cases way o hooks b d with
    | known hl =>
      rw [resolveWithin_known hl]
      exact .refl b
    | single hl hsingle =>
      obtain ⟨res, k, heq⟩ := resolveWithin_single hl hsingle
      rw [heq depth]
      exact .start _ hself
    | @array element hl hh ht he =>
      have hc : element ∈ children o hooks d := by simp [children_of_array hh ht he]
      rw [resolveWithin_array hl hh ht he]
      exact ((Adds.start _ hself).trans (hchild hc _)).sealed fun _ _ => .setKind
    | record hl hh ht =>
      rw [resolveWithin_record hl hh ht]
      refine ((Adds.start _ hself).trans (resolveFields_adds fun b f hf => ?_)).sealed
        fun _ b => .refl b
      exact hchild (children_of_record hh ht ▸ List.mem_map_of_mem hf) b
    | union hl hu =>
      rw [resolveWithin_union hl hu]
      refine ((Adds.start _ hself).trans (resolveMembers_adds fun b c hc => ?_)).sealed
        fun _ _ => .sealUnion
      exact hchild ((children_of_union hu).symm ▸ hc) b

end

/-! ### Sequences of calls -/

/-- Whether a builder comes from an empty one by calls that returned, whatever they came to. -/
inductive Reached (o : Oracle D) (hooks : List (Hook D)) : Builder D → Prop
  | empty : Reached o hooks .empty
  | call {b : Builder D} {d : D} {r : Result D NodeId} {levels : Nat} : Reached o hooks b →
      Returns o hooks levels b d r → Reached o hooks r.2

theorem Reached.valid (h : Reached o hooks b) : ∃ waiting, Valid o.lenient hooks b waiting := by
  induction h with
  | empty => exact ⟨[], valid_empty⟩
  | call _ hr ih =>
    obtain ⟨waiting, hv⟩ := ih
    obtain ⟨n, hn⟩ := hr.eventually hv
    obtain ⟨W, hW, -⟩ := ((resolveWithin_logs n).remains _ hv).stuck
    exact ⟨W ++ waiting, hn n (Nat.le_refl n) ▸ hW⟩

theorem Reached.size (h : Reached o hooks b) :
    b.nodes.size = b.known.length + b.bothBooleans.toList.length := by
  induction h with
  | empty => rfl
  | call hb hr ih =>
    obtain ⟨waiting, hv⟩ := hb.valid
    obtain ⟨n, hn⟩ := hr.eventually hv
    have hadds := (hn n (Nat.le_refl n) ▸ resolveWithin_adds n _ _ : Adds _ _ _)
    have := hadds.size
    omega

theorem Reached.unique {levels levels' : Nat} {r r' : Result D NodeId} (h : Reached o hooks b)
    (hr : Returns o hooks levels b d r) (hr' : Returns o hooks levels' b d r') : r' = r := by
  obtain ⟨waiting, hv⟩ := h.valid
  obtain ⟨m, hm⟩ := hr.eventually hv
  obtain ⟨n, hn⟩ := hr'.eventually hv
  rw [← hm (max m n) (Nat.le_max_left m n), ← hn (max m n) (Nat.le_max_right m n)]

theorem Reached.added {levels : Nat} {r : Result D NodeId} (h : Reached o hooks b)
    (hr : Returns o hooks levels b d r) :
    ∃ new, r.2.known = new ++ b.known ∧ (new.map (·.1)).Nodup ∧
      (∀ p ∈ new, Reaches o hooks d p.1 ∧ p.1 ∉ b.types) ∧
      ∀ x, b.bothBooleans = some x → r.2.bothBooleans = some x := by
  obtain ⟨waiting, hv⟩ := h.valid
  obtain ⟨n, hn⟩ := hr.eventually hv
  obtain rfl := hn n (Nat.le_refl n)
  obtain ⟨new, hnew, hreaches⟩ := (resolveWithin_adds n b d).known
  have hremains := (resolveWithin_logs n).remains d hv
  obtain ⟨W, hW, -⟩ := hremains.stuck
  have htypes := hW.types
  rw [hnew, List.map_append, List.nodup_append] at htypes
  refine ⟨new, hnew, htypes.1, fun p hp => ⟨hreaches p hp, fun hold => ?_⟩, hremains.grows.both⟩
  exact htypes.2.2 _ (List.mem_map_of_mem hp) _ hold rfl

theorem missing_toFinset (hd : {e | Reaches o hooks d e}.Finite) (b : Builder D) :
    missing hd.toFinset b = {e | Reaches o hooks d e ∧ e ∉ b.types}.ncard := by
  rw [missing, ← Set.ncard_coe_finset]
  congr 1
  ext e
  simp

/-- A call for a type that leads to finitely many types returns, whatever calls were made before.
One level of unions in each other is enough, and so is any depth of the bounded function that is
more than the number of types on the way that have no node yet. Each of these gets at most one node,
and there is at most one node that is not that of a type. -/
theorem resolve_returns (o : Oracle D) (hooks : List (Hook D)) {b : Builder D}
    (hb : Reached o hooks b) {d : D} (hd : {e | Reaches o hooks d e}.Finite) :
    ∃ r, Returns o hooks 1 b d r ∧ (∀ levels r', Returns o hooks levels b d r' → r' = r) ∧
      (∀ depth, {e | Reaches o hooks d e ∧ e ∉ b.types}.ncard < depth →
        resolveWithin o hooks depth b d = r) ∧
      ((∀ e, Reaches o hooks d e → e ∈ o.descriptors) → b.resolve o hooks d = r) ∧
      b.nodes.size = b.known.length + b.bothBooleans.toList.length ∧
      r.2.nodes.size = r.2.known.length + r.2.bothBooleans.toList.length ∧
      ∃ new, r.2.known = new ++ b.known ∧ (new.map (·.1)).Nodup ∧
        (∀ p ∈ new, Reaches o hooks d p.1 ∧ p.1 ∉ b.types) ∧
        ∀ x, b.bothBooleans = some x → r.2.bothBooleans = some x := by
  obtain ⟨waiting, hv⟩ := hb.valid
  have hclosed : ∀ e ∈ hd.toFinset, ∀ c ∈ children o hooks e, c ∈ hd.toFinset :=
    fun e he c hc => hd.mem_toFinset.2 (.tail (hd.mem_toFinset.1 he) hc)
  have hreturns (depth : Nat) (hdepth : {e | Reaches o hooks d e ∧ e ∉ b.types}.ncard < depth) :
      Returns o hooks 1 b d (resolveWithin o hooks depth b d) :=
    resolveWithin_settles hclosed depth hv (missing_toFinset hd b ▸ hdepth)
      (hd.mem_toFinset.2 .refl)
  obtain ⟨r, hr⟩ : ∃ r, Returns o hooks 1 b d r := ⟨_, hreturns _ (Nat.lt_succ_self _)⟩
  refine ⟨r, hr, fun _ _ => hb.unique hr, fun depth hdepth => hb.unique hr (hreturns depth hdepth),
    fun hlisted => hb.unique hr (hreturns _ ?_), hb.size, (hb.call hr).size, hb.added hr⟩
  have hle : missing hd.toFinset b ≤ o.descriptors.length := by
    refine Nat.le_trans (Finset.card_le_card fun e he => ?_) o.descriptors.toFinset_card_le
    exact List.mem_toFinset.2 (hlisted e (hd.mem_toFinset.1 (Finset.mem_sdiff.1 he).1))
  rw [missing_toFinset] at hle
  exact Nat.lt_add_right 1 (Nat.lt_succ_of_le hle)

/-- A union of lists of itself, of records that lead back to it, of another union with such lists
as well, and of both booleans. Two further unions are members of each other. -/
def grove : Oracle (Fin 9) where
  descriptors := List.finRange 9
  is d t := [(0, Trait.union), (1, .array), (2, .record), (3, .union), (4, .union), (5, .union),
    (6, .booleanLiteral), (7, .booleanLiteral), (8, .string)].contains (d, t)
  unionMembers d := match d with
    | 0 => [1, 2, 5, 6, 7]
    | 3 => [4]
    | 4 => [3]
    | 5 => [8, 1]
    | _ => []
  recordFields d := if d = 2 then [("next", 0), ("name", 8)] else []
  arrayElement d := if d = 1 then some 0 else none
  literalValue d := match d with
    | 6 => some (.boolean true)
    | 7 => some (.boolean false)
    | _ => none
  typeName d := toString d

/-- The unions that are members of each other fail. The other union is resolved after that, with
seven new types and the node of both booleans. -/
theorem resolve_returns_grove : ∃ b, Reached grove [] b ∧ b.nodes.size = 2 ∧
    {e | Reaches grove [] 0 e}.Finite ∧ ∃ r, Returns grove [] 1 b 0 r ∧
      (∀ levels r', Returns grove [] levels b 0 r' → r' = r) ∧ r.1.isOk ∧ r.2.nodes.size = 10 := by
  have hfinite (d : Fin 9) : {e | Reaches grove [] d e}.Finite := Set.toFinite _
  obtain ⟨r, hr, -, -, hfirst, -⟩ := resolve_returns grove [] .empty (hfinite 3)
  obtain rfl := hfirst fun e _ => List.mem_finRange e
  have hb := Reached.call .empty hr
  obtain ⟨r, hr, hunique, -, hsecond, -⟩ := resolve_returns grove [] hb (hfinite 0)
  obtain rfl := hsecond fun e _ => List.mem_finRange e
  exact ⟨_, hb, by decide +kernel, hfinite 0, _, hr, hunique, by decide +kernel, by decide +kernel⟩

end Conform.Builder
