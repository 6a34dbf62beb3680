import Conform.Proofs.Builder.Failures
import Conform.Proofs.Builder.Nested

/-! What resolving a type comes to with no bound on how types nest, whether it succeeds or fails.
It is what the bounded function gives with any depth that is large enough. -/

namespace Conform

variable {D : Type} [DecidableEq D]

namespace Builder

section

variable (o : Oracle D) (hooks : List (Hook D)) (levels : Nat)

mutual

/-- What resolving a type comes to. Unions are folded in through at most `levels` others. -/
inductive Returns : Builder D → D → Result D NodeId → Prop
  | known {b : Builder D} {d : D} {id : NodeId} : b.known.lookup d = some id →
      Returns b d (.ok id, b)
  | single {b : Builder D} {d : D} : b.known.lookup d = none → Single o hooks d →
      Returns b d (resolveWithin o hooks 1 b d)
  | array {b : Builder D} {d element : D} {r : Result D NodeId} : b.known.lookup d = none →
      hook? hooks d = none → o.trait? d = some .array → o.arrayElement d = some element →
      Returns (b.start d (o.typeName d) (.array none)) element r →
      Returns b d (sealed b.nodes.size
        (fun x b' => b'.setKind b.nodes.size (.array (some x))) r)
  | record {b : Builder D} {d : D} {r : Result D Unit} : b.known.lookup d = none →
      hook? hooks d = none → o.trait? d = some .record →
      ReturnsFields b.nodes.size b.recordCount
        (b.start d (o.typeName d) (.record b.recordCount [])) [] (o.recordFields d) r →
      Returns b d (sealed b.nodes.size (fun _ b' => b') r)
  | union {b : Builder D} {d : D} {r : Result D (List NodeId)} : b.known.lookup d = none →
      IsUnion o hooks d →
      ReturnsMembers b.nodes.size (b.start d (o.typeName d) (.union [])) [] (o.unionMembers d) r →
      Returns b d (sealed b.nodes.size (sealUnion b.nodes.size) r)

inductive ReturnsMembers :
    NodeId → Builder D → List NodeId → List D → Result D (List NodeId) → Prop
  | nil {union : NodeId} {b : Builder D} {folded : List NodeId} :
      ReturnsMembers union b folded [] (.ok folded, b)
  | failed {union : NodeId} {b b' : Builder D} {folded : List NodeId} {d : D} {ds : List D}
      {e : CompileError} : Returns b d (.error e, b') →
      ReturnsMembers union b folded (d :: ds) (.error e, b')
  | unfolded {union member : NodeId} {b b₁ b' : Builder D} {folded : List NodeId} {d : D}
      {ds : List D} {e : CompileError} : Returns b d (.ok member, b₁) →
      foldNested union levels b₁ folded member = some (.error e, b') →
      ReturnsMembers union b folded (d :: ds) (.error e, b')
  | cons {union member : NodeId} {b b₁ b₂ : Builder D} {folded folded₁ : List NodeId} {d : D}
      {ds : List D} {r : Result D (List NodeId)} : Returns b d (.ok member, b₁) →
      foldNested union levels b₁ folded member = some (.ok folded₁, b₂) →
      ReturnsMembers union b₂ folded₁ ds r → ReturnsMembers union b folded (d :: ds) r

inductive ReturnsFields :
    NodeId → RecordId → Builder D → List (String × NodeId) → List (String × D) →
      Result D Unit → Prop
  | nil {id : NodeId} {record : RecordId} {b : Builder D} {done : List (String × NodeId)} :
      ReturnsFields id record b done [] (.ok (), b)
  | failed {id : NodeId} {record : RecordId} {b b' : Builder D} {done : List (String × NodeId)}
      {name : String} {d : D} {fs : List (String × D)} {e : CompileError} :
      Returns b d (.error e, b') → ReturnsFields id record b done ((name, d) :: fs) (.error e, b')
  | cons {id member : NodeId} {record : RecordId} {b b₁ : Builder D}
      {done : List (String × NodeId)} {name : String} {d : D} {fs : List (String × D)}
      {r : Result D Unit} : Returns b d (.ok member, b₁) →
      ReturnsFields id record (b₁.setKind id (.record record (done ++ [(name, member)])))
        (done ++ [(name, member)]) fs r →
      ReturnsFields id record b done ((name, d) :: fs) r

end

end

/-! ### Enough depth -/

section

variable {o : Oracle D} {hooks : List (Hook D)} {levels : Nat}

theorem Valid.start_lenient {b : Builder D} {waiting : List NodeId} {d : D} {k : NodeKind}
    {name : String} (h : Valid o.lenient hooks b waiting) (hl : b.known.lookup d = none)
    (hs : Suits o hooks d k) (hr : ∀ r members, k = .record r members → r = b.recordCount) :
    Valid o.lenient hooks (b.start d name k) (b.nodes.size :: waiting) :=
  (Remains.start name h (lookup_eq_none.1 hl) hs hr).valid

mutual

/-- What resolving a type comes to is given with any depth from some on. -/
theorem Returns.eventually {b : Builder D} {d : D} {r : Result D NodeId} :
    Returns o hooks levels b d r → ∀ {waiting : List NodeId}, Valid o.lenient hooks b waiting →
      ∃ n, ∀ depth, n ≤ depth → resolveWithin o hooks depth b d = r
  | .known hl, _, _ => by
    refine ⟨1, fun depth hn => ?_⟩
    obtain ⟨depth, rfl⟩ := Nat.exists_eq_add_of_le' hn
    exact resolveWithin_known hl
  | .single hl hs, _, _ => by
    obtain ⟨res, k, heq⟩ := resolveWithin_single hl hs
    refine ⟨1, fun depth hn => ?_⟩
    obtain ⟨depth, rfl⟩ := Nat.exists_eq_add_of_le' hn
    rw [heq depth, heq 0]
  | .array hl hh ht he hr, _, h => by
    obtain ⟨n, hn⟩ := hr.eventually (h.start_lenient hl (.array hh ht) (by simp))
    refine ⟨n + 1, fun depth hle => ?_⟩
    obtain ⟨depth, rfl⟩ := Nat.exists_eq_add_of_le' (Nat.le_of_add_left_le hle)
    rw [resolveWithin_array hl hh ht he, hn depth (Nat.le_of_succ_le_succ hle)]
  | .record hl hh ht hr, _, h => by
    obtain ⟨n, hn⟩ := hr.eventually
      (h.start_lenient hl (.record hh ht) (by rintro r members ⟨⟩; rfl)) List.mem_cons_self
      kind_start_self
    refine ⟨n + 1, fun depth hle => ?_⟩
    obtain ⟨depth, rfl⟩ := Nat.exists_eq_add_of_le' (Nat.le_of_add_left_le hle)
    rw [resolveWithin_record hl hh ht, hn depth (Nat.le_of_succ_le_succ hle)]
  | .union hl hu hr, _, h => by
    obtain ⟨n, hn⟩ := hr.eventually (h.start_lenient hl (.union hu) (by simp)) (gathered_nil _)
    refine ⟨n + 1, fun depth hle => ?_⟩
    obtain ⟨depth, rfl⟩ := Nat.exists_eq_add_of_le' (Nat.le_of_add_left_le hle)
    rw [resolveWithin_union hl hu, hn depth (Nat.le_of_succ_le_succ hle)]

theorem ReturnsMembers.eventually {union : NodeId} {b : Builder D} {folded : List NodeId}
    {ds : List D} {r : Result D (List NodeId)} :
    ReturnsMembers o hooks levels union b folded ds r →
    ∀ {waiting : List NodeId} {ms : List D}, Valid o.lenient hooks b waiting →
      Gathered o.lenient hooks b ms folded → ∃ n, ∀ depth, n ≤ depth →
        resolveMembers (resolveWithin o hooks depth) union b folded ds = r
  | .nil, _, _, _, _ => ⟨0, fun _ _ => rfl⟩
  | .failed hd, _, _, h, _ => by
    obtain ⟨n, hn⟩ := hd.eventually h
    exact ⟨n, fun depth hle => by rw [resolveMembers, hn depth hle]⟩
  | .unfolded hd hfold, _, _, h, hg => by
    obtain ⟨n, hn⟩ := hd.eventually h
    obtain ⟨ha, -⟩ := resolveWithin_lenient n h (hn n (Nat.le_refl n))
    have hfold := ha.valid.foldMember_eq (hg.later h ha.valid.types ha.later) hfold
    exact ⟨n, fun depth hle => by simp only [resolveMembers, hn depth hle, hfold]⟩
  | .cons hd hfold hds, _, _, h, hg => by
    obtain ⟨n, hn⟩ := hd.eventually h
    obtain ⟨ha, hx⟩ := resolveWithin_lenient n h (hn n (Nat.le_refl n))
    have hg₁ := hg.later h ha.valid.types ha.later
    have hfold := ha.valid.foldMember_eq hg₁ hfold
    obtain ⟨hfolds, hg₂⟩ := foldMember_gathered ha.valid hx hg₁ hfold
    obtain ⟨m, hm⟩ := hds.eventually (ha.valid.folds hfolds) hg₂
    refine ⟨max n m, fun depth hle => ?_⟩
    simp only [resolveMembers, hn depth (Nat.le_trans (Nat.le_max_left n m) hle), hfold]
    exact hm depth (Nat.le_trans (Nat.le_max_right n m) hle)

theorem ReturnsFields.eventually {id : NodeId} {record : RecordId} {b : Builder D}
    {done : List (String × NodeId)} {fs : List (String × D)} {r : Result D Unit} :
    ReturnsFields o hooks levels id record b done fs r →
    ∀ {waiting : List NodeId}, Valid o.lenient hooks b waiting → id ∈ waiting →
      b.kind id = .record record done → ∃ n, ∀ depth, n ≤ depth →
        resolveFields (resolveWithin o hooks depth) id record b done fs = r
  | .nil, _, _, _, _ => ⟨0, fun _ _ => rfl⟩
  | .failed hd, _, h, _, _ => by
    obtain ⟨n, hn⟩ := hd.eventually h
    exact ⟨n, fun depth hle => by rw [resolveFields, hn depth hle]⟩
  | .cons hd hfs, _, h, hid, hk => by
    obtain ⟨n, hn⟩ := hd.eventually h
    obtain ⟨ha, -⟩ := resolveWithin_lenient n h (hn n (Nat.le_refl n))
    obtain ⟨h₂, hk₂⟩ := ha.field h hid hk _
    obtain ⟨m, hm⟩ := hfs.eventually h₂ hid hk₂
    refine ⟨max n m, fun depth hle => ?_⟩
    simp only [resolveFields, hn depth (Nat.le_trans (Nat.le_max_left n m) hle)]
    exact hm depth (Nat.le_trans (Nat.le_max_right n m) hle)

end

end

end Builder

end Conform
