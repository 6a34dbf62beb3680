import Conform.Proofs.Schema.Embedding

/-! Keys: what types are, whatever the numbers of their entries. Interning an expression gives the
entry of its key, in any table, and no two entries have one key. -/

namespace Conform

/-- What an expression belongs to: a declaration, a request or a conversion. -/
inductive Owner where
  | declared (name : String)
  | requested (name : String)
  | converted (conversion : Nat)
  deriving DecidableEq

/-- What a type is. A record is told from others with its fields by what it belongs to, and by the
number of records that end before it there. -/
inductive TypeKey where
  | declared (name : String)
  | keyword (k : Keyword)
  | literal (value : Literal)
  | array (element : TypeKey)
  | union (members : List TypeKey)
  | record (owner : Owner) (number : Nat) (fields : List (String × TypeKey))

/-! ### Keys of expressions -/

mutual

/-- The number of records in an expression. -/
def TypeExpr.records : TypeExpr → Nat
  | .array e => e.records
  | .union es => allRecords es
  | .record fs => fieldsRecords fs + 1
  | _ => 0

def allRecords : List TypeExpr → Nat
  | [] => 0
  | e :: es => e.records + allRecords es

def fieldsRecords : List (String × TypeExpr) → Nat
  | [] => 0
  | (_, e) :: fs => e.records + fieldsRecords fs

end

section

variable (target : String → Option String) (owner : Owner)

mutual

/-- The key of an expression, where names refer to declarations and some records went before. -/
def TypeExpr.key (before : Nat) : TypeExpr → TypeKey
  | .name n =>
    match target n with
    | some m => .declared m
    | none => .keyword ((Keyword.ofName? n).getD .any)
  | .literal value => .literal value.normal
  | .bigint text => .literal (.bigint ((BigInt.parse? text).getD 0))
  | .array e => .array (e.key before)
  | .union es => .union (allKeys before es)
  | .record fs => .record owner (before + fieldsRecords fs) (fieldsKeys before fs)

def allKeys (before : Nat) : List TypeExpr → List TypeKey
  | [] => []
  | e :: es => e.key before :: allKeys (before + e.records) es

def fieldsKeys (before : Nat) : List (String × TypeExpr) → List (String × TypeKey)
  | [] => []
  | (name, e) :: fs => (name, e.key before) :: fieldsKeys (before + e.records) fs

end

end

namespace Owner

def count (owner : Owner) (n : Nat) (f : Owner → Nat) : Owner → Nat :=
  Function.update f owner (f owner + n)

variable {owner o : Owner} {m n : Nat} {f : Owner → Nat}

@[simp]
theorem count_zero : owner.count 0 f = f := Function.update_eq_self owner f

@[simp]
theorem count_self : owner.count n f owner = f owner + n := Function.update_self ..

@[simp]
theorem count_count : owner.count n (owner.count m f) = owner.count (m + n) f := by
  rw [count, count_self, count, Function.update_idem, count, Nat.add_assoc]

theorem count_of_ne (h : o ≠ owner) : owner.count n f o = f o := Function.update_of_ne h ..

theorem le_count : f o ≤ owner.count n f o := by
  by_cases h : o = owner
  · rw [h, count_self]
    exact Nat.le_add_right _ _
  · exact Nat.le_of_eq (count_of_ne h).symm

end Owner

/-! ### Keys of entries -/

/-- Whether a shape is that of a key, where other entries have keys. -/
inductive Shape.Keyed (K : TypeId → TypeKey) : Shape → TypeKey → Prop
  | keyword {k : Keyword} : Keyed K (.keyword k) (.keyword k)
  | literal {value : Literal} : Keyed K (.literal value) (.literal value.normal)
  | array {d : TypeId} : Keyed K (.array d) (.array (K d))
  | union {ds : List TypeId} : Keyed K (.union ds) (.union (ds.map K))
  | record {owner : Owner} {n : Nat} {fs : List (String × TypeId)} :
      Keyed K (.record fs) (.record owner n (fs.map fun f => (f.1, K f.2)))

namespace Shape.Keyed

variable {K K' : TypeId → TypeKey} {s s' : Shape} {κ : TypeKey}

theorem congr (h : s.Keyed K κ) (hK : ∀ c ∈ s.children, K' c = K c) : s.Keyed K' κ := by
  cases h with
  | keyword => exact .keyword
  | literal => exact .literal
  | array =>
    rw [← hK _ (by simp [children])]
    exact .array
  | @union ds =>
    have : ds.map K = ds.map K' := List.map_congr_left fun c hc => (hK c hc).symm
    rw [this]
    exact .union
  | @record owner n fs =>
    have : (fs.map fun f => (f.1, K f.2)) = fs.map fun f => (f.1, K' f.2) :=
      List.map_congr_left fun f hf => by rw [hK f.2 (List.mem_map_of_mem hf)]
    rw [this]
    exact .record

theorem same (h : s.Keyed K κ) (h' : s'.Keyed K κ)
    (hK : ∀ x ∈ s.children, ∀ y ∈ s'.children, K x = K y → x = y)
    (hr : ∀ owner n fs, κ ≠ .record owner n fs) : s.same s' := by
  generalize hκ : κ = κ' at h'
  cases h with
  | keyword =>
    cases h' <;> cases hκ
    simp [Shape.same]
  | literal =>
    cases h' <;> simp only [TypeKey.literal.injEq, reduceCtorEq] at hκ
    exact Literal.same_iff.2 hκ
  | array =>
    cases h' <;> simp only [TypeKey.array.injEq, reduceCtorEq] at hκ
    simpa [Shape.same] using hK _ (by simp [children]) _ (by simp [children]) hκ
  | union =>
    cases h' <;> simp only [TypeKey.union.injEq, reduceCtorEq] at hκ
    simpa [Shape.same] using eq_of_map hκ hK
  | record => exact absurd rfl (hr _ _ _)

theorem eq_of_same {a : Shape} {κ' : TypeKey} (h : a.Keyed K κ) (h' : s.Keyed K κ')
    (hs : a.same s) : κ = κ' := by
  cases h <;> cases h' <;> simp_all [Shape.same, Literal.same_iff]

end Shape.Keyed

namespace Table

/-- Whether the entries of a table have keys, each one of its own. The records of each owner are
numbered below a count. -/
structure Keyed (target : String → Option String) (K : TypeId → TypeKey) (f : Owner → Nat)
    (t : Table) : Prop where
  tidy : t.Tidy
  targets : ∀ n, (t.lookup n).map K = (target n).map .declared
  injective : ∀ {x y}, x < t.entries.size → y < t.entries.size → K x = K y → x = y
  named : ∀ {d : TypeId} {n s}, t.entries[d]? = some ⟨some n, s⟩ →
    K d = .declared n ∧ target n = some n
  inline : ∀ {d s}, t.HasInline d s → s.Keyed K (K d)
  below : ∀ {d s}, t.HasInline d s → ∀ c ∈ s.children, c < d
  records : ∀ {d owner n fs}, d < t.entries.size → K d = .record owner n fs → n < f owner

structure KeepsKeys (t : Table) (K : TypeId → TypeKey) (t' : Table) (K' : TypeId → TypeKey) :
    Prop where
  size : t.entries.size ≤ t'.entries.size
  key : ∀ c < t.entries.size, K' c = K c

variable {target : String → Option String} {K K' : TypeId → TypeKey} {f f' : Owner → Nat}
  {t t' u : Table} {owner : Owner} {κ : TypeKey} {d : TypeId} {s : Shape}

theorem KeepsKeys.refl (t : Table) (K : TypeId → TypeKey) : KeepsKeys t K t K :=
  ⟨Nat.le_refl _, fun _ _ => rfl⟩

theorem KeepsKeys.trans {t'' : Table} {K'' : TypeId → TypeKey} (h : KeepsKeys t K t' K')
    (h' : KeepsKeys t' K' t'' K'') : KeepsKeys t K t'' K'' :=
  ⟨Nat.le_trans h.size h'.size, fun c hc =>
    (h'.key c (Nat.lt_of_lt_of_le hc h.size)).trans (h.key c hc)⟩

namespace Keyed

theorem mono (h : t.Keyed target K f) (hf : ∀ o, f o ≤ f' o) : t.Keyed target K f' :=
  { h with records := fun hd hr => Nat.lt_of_lt_of_le (h.records hd hr) (hf _) }

theorem entry_cases (h : t.Keyed target K f) (hd : d < t.entries.size) :
    (∃ n s, t.entries[d]? = some ⟨some n, s⟩ ∧ K d = .declared n) ∨
      ∃ s, t.HasInline d s ∧ s.Keyed K (K d) := by
  have he := Array.getElem?_eq_getElem hd
  rcases hentry : t.entries[d] with ⟨_ | n, s⟩
  · rw [hentry] at he
    exact Or.inr ⟨s, he, h.inline he⟩
  · rw [hentry] at he
    exact Or.inl ⟨n, s, he, (h.named he).1⟩

theorem alloc (h : t.Keyed target K f) (hc : ∀ c ∈ s.children, c < t.entries.size)
    (hs : s.Keyed K κ) (hnew : ∀ {i a}, t.HasInline i a → a.same s = false)
    (hκ : ∀ x < t.entries.size, K x ≠ κ) (hff : ∀ o, f o ≤ f' o)
    (hr : ∀ o n fs, κ = .record o n fs → n < f' o) :
    (t.alloc ⟨none, s⟩).2.Keyed target (Function.update K t.entries.size κ) f' := by
  have hsize : (t.alloc ⟨none, s⟩).2.entries.size = t.entries.size + 1 := by simp [Table.alloc]
  have hold : ∀ x < t.entries.size, Function.update K t.entries.size κ x = K x :=
    fun x hx => Function.update_of_ne (Nat.ne_of_lt hx) _ _
  have hcases : ∀ {x}, x < t.entries.size + 1 → x < t.entries.size ∨ x = t.entries.size :=
    fun hx => Nat.lt_succ_iff_lt_or_eq.1 hx
  refine ⟨h.tidy.alloc hc hnew, fun n => ?_, fun {x y} hx hy hxy => ?_, fun {x n a} hx => ?_,
    fun {x a} hx => ?_, fun {x a} hx c hca => ?_, fun {x o n fs} hx hk => ?_⟩
  · rw [← h.targets n]
    change (t.lookup n).map _ = _
    cases hl : t.lookup n with
    | none => rfl
    | some d => rw [Option.map_some, Option.map_some, hold d (h.tidy.names hl)]
  · rw [hsize] at hx hy
    rcases hcases hx with hx | rfl <;> rcases hcases hy with hy | rfl
    · rw [hold x hx, hold y hy] at hxy
      exact h.injective hx hy hxy
    · rw [hold x hx, Function.update_self] at hxy
      exact absurd hxy (hκ x hx)
    · rw [hold y hy, Function.update_self] at hxy
      exact absurd hxy.symm (hκ y hy)
    · rfl
  · rw [entry_alloc] at hx
    split_ifs at hx
    · cases hx
    · rw [hold x (lt_of_entry hx)]
      exact h.named hx
  · rw [HasInline, entry_alloc] at hx
    split_ifs at hx with he
    · cases hx
      rw [he, Function.update_self]
      exact hs.congr fun c hca => hold c (hc c hca)
    · rw [hold x (lt_of_entry hx)]
      exact (h.inline hx).congr fun c hca => hold c (h.tidy.children hx c hca)
  · rw [HasInline, entry_alloc] at hx
    split_ifs at hx with he
    · cases hx
      rw [he]
      exact hc c hca
    · exact h.below hx c hca
  · rw [hsize] at hx
    rcases hcases hx with hx | rfl
    · rw [hold x hx] at hk
      exact Nat.lt_of_lt_of_le (h.records hx hk) (hff o)
    · rw [Function.update_self] at hk
      exact hr o n fs hk

theorem inline_keyed (h : t.Keyed target K f) (hc : ∀ c ∈ s.children, c < t.entries.size)
    (hs : s.Keyed K κ) (hff : ∀ o, f o ≤ f' o)
    (hr : ∀ o n fs, κ = .record o n fs → f o ≤ n ∧ n < f' o) :
    ∃ K', KeepsKeys t K (t.inline s).2 K' ∧ (t.inline s).2.Keyed target K' f' ∧
      (t.inline s).1 < (t.inline s).2.entries.size ∧ K' (t.inline s).1 = κ := by
  rcases t.inline_cases s with ⟨d, a, hd, ha, hi⟩ | ⟨hnew, hi⟩
  · rw [hi]
    exact ⟨K, .refl t K, h.mono hff, lt_of_entry hd, (h.inline hd).eq_of_same hs ha⟩
  · rw [hi]
    have hκ : ∀ x < t.entries.size, K x ≠ κ := by
      rintro x hx rfl
      rcases h.entry_cases hx with ⟨n, -, -, hk⟩ | ⟨a, ha, hak⟩
      · rw [hk] at hs
        cases hs
      · -- a record of this key would have been counted, and another shape would have been found
        have hsame := hak.same hs (fun c hca c' hcs =>
          h.injective (h.tidy.children ha c hca) (hc c' hcs)) fun o n fs hk =>
            absurd (h.records hx hk) (Nat.not_lt_of_le (hr o n fs hk).1)
        rw [hnew ha] at hsame
        cases hsame
    refine ⟨_, ⟨(extends_alloc t _).size, fun c hc => Function.update_of_ne (Nat.ne_of_lt hc) _ _⟩,
      h.alloc hc hs hnew hκ hff fun o n fs hk => (hr o n fs hk).2, ?_, Function.update_self ..⟩
    simp [Table.alloc]

end Keyed

/-! ### Interning -/

/-- Whether what an expression comes to has a key. -/
def Lowered.Has (K : TypeId → TypeKey) (t : Table) (κ : TypeKey) : Lowered → Prop
  | .known d => d < t.entries.size ∧ K d = κ
  | .fresh s => s.Keyed K κ ∧ ∀ c ∈ s.children, c < t.entries.size

/-- Whether an expression came to a key, and a record of that key would be new. -/
def ReadsKey (target : String → Option String) (t : Table) (K : TypeId → TypeKey) (f' : Owner → Nat)
    (κ : TypeKey) (l : Lowered) (u : Table) : Prop :=
  ∃ K' g, KeepsKeys t K u K' ∧ u.Keyed target K' g ∧ l.Has K' u κ ∧ (∀ o, g o ≤ f' o) ∧
    ∀ o n fs, κ = .record o n fs → g o ≤ n ∧ n < f' o

def SettlesKey (target : String → Option String) (t : Table) (K : TypeId → TypeKey)
    (f' : Owner → Nat) (κ : TypeKey) (d : TypeId) (u : Table) : Prop :=
  ∃ K', KeepsKeys t K u K' ∧ u.Keyed target K' f' ∧ d < u.entries.size ∧ K' d = κ

theorem settle_keyed {r : Result Lowered} (h : settle r = (.ok d, u))
    (hr : ∀ {l v}, r = (.ok l, v) → ReadsKey target t K f' κ l v) :
    SettlesKey target t K f' κ d u := by
  rcases settle_eq_ok h with hl | ⟨s, v, hl, hi⟩
  · obtain ⟨K', g, hkeeps, hk, ⟨hlt, hd⟩, hg, -⟩ := hr hl
    exact ⟨K', hkeeps, hk.mono hg, hlt, hd⟩
  · obtain ⟨K', g, hkeeps, hk, ⟨hs, hc⟩, hg, hrec⟩ := hr hl
    obtain ⟨K'', hkeeps', hk', hlt, hd⟩ := hk.inline_keyed hc hs hg hrec
    rw [hi] at hkeeps' hk' hlt hd
    exact ⟨K'', hkeeps.trans hkeeps', hk', hlt, hd⟩

mutual

theorem lower_keyed {K : TypeId → TypeKey} {f : Owner → Nat} {t u : Table} {e : TypeExpr}
    {l : Lowered} (h : t.Keyed target K f) (hl : t.lower e = (.ok l, u)) :
    ReadsKey target t K (owner.count e.records f) (e.key target owner (f owner)) l u := by
  -- what has no parts adds no entry, so that all keys stay as they are
  have hsimple : ∀ {κ : TypeKey} {l : Lowered}, l.Has K t κ →
      (∀ o n fs, κ ≠ .record o n fs) → ReadsKey target t K (owner.count 0 f) κ l t :=
    fun hl hr => ⟨K, f, .refl t K, h, hl, fun _ => Owner.le_count,
      fun o n fs hk => absurd hk (hr o n fs)⟩
  cases e with
  | name n =>
    have htarget := h.targets n
    rw [lower] at hl
    rw [TypeExpr.key, TypeExpr.records]
    · split at hl <;> cases hl
      · rename_i d hn
        rw [hn] at htarget
        cases hm : target n with
        | none => simp [hm] at htarget
        | some m =>
          rw [hm] at htarget
          exact hsimple ⟨h.tidy.names hn, Option.some.inj htarget⟩ (by simp)
      · rename_i k hn hk
        rw [hn] at htarget
        cases hm : target n with
        | some m => simp [hm] at htarget
        | none =>
          rw [hk]
          exact hsimple ⟨.keyword, by simp [Shape.children]⟩ (by simp)
    all_goals simp
  | literal value =>
    rw [lower] at hl
    cases hl
    rw [TypeExpr.key, TypeExpr.records]
    · exact hsimple ⟨.literal, by simp [Shape.children]⟩ (by simp)
    all_goals simp
  | bigint text =>
    rw [lower] at hl
    split at hl <;> cases hl
    rename_i i hi
    rw [TypeExpr.key, TypeExpr.records, hi]
    · exact hsimple ⟨.literal, by simp [Shape.children]⟩ (by simp)
    all_goals simp
  | array element =>
    rw [lower] at hl
    obtain ⟨d, hs, rfl⟩ := shaped_eq_ok hl
    obtain ⟨K', hkeeps, hk, hlt, hd⟩ :=
      settle_keyed (t := t) (K := K) hs fun hl => lower_keyed (e := element) h hl
    rw [TypeExpr.key, TypeExpr.records, ← hd]
    exact ⟨K', _, hkeeps, hk, ⟨.array, by simpa [Shape.children] using hlt⟩, fun _ => Nat.le_refl _,
      by simp⟩
  | union members =>
    rw [lower] at hl
    obtain ⟨ds, hs, rfl⟩ := shaped_eq_ok hl
    obtain ⟨K', hkeeps, hk, hlt, hds⟩ := internAll_keyed h hs
    rw [TypeExpr.key, TypeExpr.records, ← hds]
    exact ⟨K', _, hkeeps, hk, ⟨.union, hlt⟩, fun _ => Nat.le_refl _, by simp⟩
  | record fields =>
    rw [lower] at hl
    obtain ⟨ds, hs, rfl⟩ := shaped_eq_ok hl
    obtain ⟨K', hkeeps, hk, hlt, hds⟩ := internFields_keyed h hs
    rw [TypeExpr.key, TypeExpr.records, ← hds, ← Owner.count_count]
    refine ⟨K', _, hkeeps, hk, ⟨.record, fun c hc => ?_⟩, fun _ => Owner.le_count, ?_⟩
    · obtain ⟨f, hf, rfl⟩ := List.mem_map.1 hc
      exact hlt f hf
    · rintro o n fs ⟨⟩
      simp

theorem internAll_keyed {K : TypeId → TypeKey} {f : Owner → Nat} {t u : Table} {es : List TypeExpr}
    {ds : List TypeId} (h : t.Keyed target K f) (hi : t.internAll es = (.ok ds, u)) :
    ∃ K', KeepsKeys t K u K' ∧ u.Keyed target K' (owner.count (allRecords es) f) ∧
      (∀ d ∈ ds, d < u.entries.size) ∧ ds.map K' = allKeys target owner (f owner) es := by
  cases es with
  | nil =>
    rw [internAll] at hi
    cases hi
    refine ⟨K, .refl t K, ?_, by simp, rfl⟩
    rwa [allRecords, Owner.count_zero]
  | cons e es =>
    obtain ⟨d, t₁, ds₁, hs, hes, rfl⟩ := internAll_cons_eq_ok.1 hi
    obtain ⟨K₁, hkeeps, hk, hlt, hd⟩ :=
      settle_keyed (t := t) (K := K) hs fun hl => lower_keyed (e := e) h hl
    obtain ⟨K', hkeeps', hk', hlt', hds⟩ := internAll_keyed hk hes
    rw [Owner.count_count] at hk'
    rw [Owner.count_self] at hds
    refine ⟨K', hkeeps.trans hkeeps', hk', ?_, ?_⟩
    · exact List.forall_mem_cons.2 ⟨Nat.lt_of_lt_of_le hlt hkeeps'.size, hlt'⟩
    · rw [List.map_cons, hkeeps'.key d hlt, hd, hds, allKeys]

theorem internFields_keyed {K : TypeId → TypeKey} {f : Owner → Nat} {t u : Table}
    {fs : List (String × TypeExpr)} {ds : List (String × TypeId)} (h : t.Keyed target K f)
    (hi : t.internFields fs = (.ok ds, u)) :
    ∃ K', KeepsKeys t K u K' ∧ u.Keyed target K' (owner.count (fieldsRecords fs) f) ∧
      (∀ d ∈ ds, d.2 < u.entries.size) ∧
      (ds.map fun d => (d.1, K' d.2)) = fieldsKeys target owner (f owner) fs := by
  cases fs with
  | nil =>
    rw [internFields] at hi
    cases hi
    refine ⟨K, .refl t K, ?_, by simp, rfl⟩
    rwa [fieldsRecords, Owner.count_zero]
  | cons c fs =>
    obtain ⟨name, e⟩ := c
    obtain ⟨d, t₁, ds₁, hs, hes, rfl⟩ := internFields_cons_eq_ok.1 hi
    obtain ⟨K₁, hkeeps, hk, hlt, hd⟩ :=
      settle_keyed (t := t) (K := K) hs fun hl => lower_keyed (e := e) h hl
    obtain ⟨K', hkeeps', hk', hlt', hds⟩ := internFields_keyed hk hes
    rw [Owner.count_count] at hk'
    rw [Owner.count_self] at hds
    refine ⟨K', hkeeps.trans hkeeps', hk', ?_, ?_⟩
    · exact List.forall_mem_cons.2 ⟨Nat.lt_of_lt_of_le hlt hkeeps'.size, hlt'⟩
    · rw [List.map_cons, hkeeps'.key d hlt, hd, hds, fieldsKeys]

end

/-- Interning an expression gives the entry of its key. -/
theorem intern_keyed (owner : Owner) {e : TypeExpr} (h : t.Keyed target K f)
    (hi : t.intern e = (.ok d, u)) :
    SettlesKey target t K (owner.count e.records f) (e.key target owner (f owner)) d u :=
  settle_keyed hi fun hl => lower_keyed h hl

end Table

end Conform
