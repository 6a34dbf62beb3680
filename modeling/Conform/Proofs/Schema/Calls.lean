import Conform.Proofs.Schema.Bodies

/-! The calls that intern types, with the entries that they gave: those for parts of an expression
as well as those for the whole, in the order in which they came back. A call that fails may have
given entries to parts before. -/

namespace Conform

/-- The expressions that an expression is made of. -/
def TypeExpr.parts : TypeExpr → List TypeExpr
  | .array element => [element]
  | .union members => members
  | .record fields => fields.map (·.2)
  | _ => []

theorem TypeExpr.sizeOf_lt_of_mem_parts {e p : TypeExpr} (h : p ∈ e.parts) :
    sizeOf p < sizeOf e := by
  cases e with
  | array element =>
    rw [List.mem_singleton.1 h]
    simp
  | union members =>
    have hlt : sizeOf p < sizeOf members := List.sizeOf_lt_of_mem h
    simp only [union.sizeOf_spec]
    omega
  | record fields =>
    obtain ⟨f, hf, rfl⟩ := List.mem_map.1 h
    have hlt := List.sizeOf_lt_of_mem hf
    have hsnd : sizeOf f.2 < sizeOf f := by
      cases f
      simp only [Prod.mk.sizeOf_spec]
      omega
    simp only [record.sizeOf_spec]
    omega
  | _ => exact absurd h List.not_mem_nil

/-- What holds of an expression if it holds of its parts holds of every one. -/
@[elab_as_elim]
theorem TypeExpr.partsInduction {P : TypeExpr → Prop}
    (parts : ∀ e : TypeExpr, (∀ p ∈ e.parts, P p) → P e) (e : TypeExpr) : P e :=
  parts e fun p hp =>
    have := sizeOf_lt_of_mem_parts hp
    partsInduction parts p
termination_by sizeOf e

namespace Table

/-- A type expression and the entry that it was given. -/
abbrev Call := TypeExpr × TypeId

def given (e : TypeExpr) : Result TypeId → List Call
  | (.ok d, _) => [(e, d)]
  | (.error _, _) => []

mutual

/-- The calls for parts of an expression. -/
def partCalls (t : Table) : TypeExpr → List Call
  | .array e => t.partCalls e ++ given e (settle (t.lower e))
  | .union es => t.memberCalls es
  | .record fs => t.fieldCalls fs
  | _ => []

def memberCalls (t : Table) : List TypeExpr → List Call
  | [] => []
  | e :: es => t.partCalls e ++ given e (settle (t.lower e)) ++
    match settle (t.lower e) with
    | (.ok _, t) => t.memberCalls es
    | (.error _, _) => []

def fieldCalls (t : Table) : List (String × TypeExpr) → List Call
  | [] => []
  | (_, e) :: fs => t.partCalls e ++ given e (settle (t.lower e)) ++
    match settle (t.lower e) with
    | (.ok _, t) => t.fieldCalls fs
    | (.error _, _) => []

end

/-- The calls that interning an expression comes to. -/
def calls (t : Table) (e : TypeExpr) : List Call := t.partCalls e ++ given e (t.intern e)

/-- A table after calls for expressions, whatever came of each. -/
def internEach (t : Table) : List TypeExpr → Table
  | [] => t
  | e :: es => (t.intern e).2.internEach es

def eachCalls (t : Table) : List TypeExpr → List Call
  | [] => []
  | e :: es => t.calls e ++ (t.intern e).2.eachCalls es

def fillCalls : Declarations → Table → List Call
  | [], _ => []
  | (name, e) :: rest, t =>
    if e.isAlias then fillCalls rest t
    else t.partCalls e ++ match t.body e with
      | (.error _, _) => []
      | (.ok shape, t) => match t.lookup name with
        | some id => fillCalls rest (t.setShape id shape)
        | none => fillCalls rest t

def declarationCalls (types : Declarations) : List Call :=
  match aliases types types (slots types) with
  | .ok t => fillCalls types t
  | .error _ => []

variable {t t' u : Table} {e : TypeExpr} {d : TypeId} {s : Shape} {L M : List Call}

/-! ### What new entries preserve -/

theorem shaped_snd {α : Type} (f : α → Shape) (r : Result α) : (shaped f r).2 = r.2 := by
  obtain ⟨err | a, u⟩ := r <;> rfl

theorem shaped_eq {α : Type} {f : α → Shape} {r : Result α} {l : Lowered}
    (h : (shaped f r).1 = .ok l) : ∃ a, r.1 = .ok a ∧ l = .fresh (f a) := by
  obtain ⟨a, ha, hl⟩ := shaped_eq_ok (t := r.2) (Prod.ext h (shaped_snd f r))
  exact ⟨a, congrArg Prod.fst ha, hl⟩

theorem lower_ne_pending (h : (t.lower e).1 = .ok (.fresh s)) : s ≠ .pending := by
  rintro rfl
  cases e with
  | name n =>
    rw [lower] at h
    split at h <;> cases h
  | literal value =>
    rw [lower] at h
    cases h
  | bigint text =>
    rw [lower] at h
    split at h <;> cases h
  | array element =>
    rw [lower] at h
    obtain ⟨_, -, hl⟩ := shaped_eq h
    cases hl
  | union members =>
    rw [lower] at h
    obtain ⟨_, -, hl⟩ := shaped_eq h
    cases hl
  | record fields =>
    rw [lower] at h
    obtain ⟨_, -, hl⟩ := shaped_eq h
    cases hl

theorem internAll_cons_snd (t : Table) (e : TypeExpr) (es : List TypeExpr) :
    (t.internAll (e :: es)).2 = match t.intern e with
      | (.ok _, u) => (u.internAll es).2
      | (.error _, u) => u := by
  rw [internAll, ← intern]
  split
  · rename_i h
    rw [h]
  · rename_i h
    simp only [h]
    split <;> simp_all

theorem internAll_map_snd (t : Table) (fs : List (String × TypeExpr)) :
    t.internAll (fs.map (·.2)) =
      ((t.internFields fs).1.map (·.map (·.2)), (t.internFields fs).2) := by
  induction fs generalizing t with
  | nil => rfl
  | cons f fs ih =>
    obtain ⟨name, e⟩ := f
    rw [List.map_cons, internAll, internFields]
    obtain ⟨err | d, u⟩ := settle (t.lower e)
    · rfl
    · simp only [ih]
      obtain ⟨err | ds, v⟩ := u.internFields fs <;> rfl

section

variable {P : Table → Prop}

/-- Whether a property of tables is preserved when an inline shape gets its entry. -/
def Preserved (P : Table → Prop) : Prop :=
  ∀ (t : Table) (s : Shape), s ≠ .pending → P t → P (t.inline s).2

theorem Preserved.settle (hP : Preserved P) {r : Result Lowered}
    (hr : ∀ s, r.1 = .ok (.fresh s) → s ≠ .pending) (h : P r.2) : P (settle r).2 := by
  obtain ⟨(err | d | s), u⟩ := r
  · exact h
  · exact h
  · exact hP u s (hr s rfl) h

theorem preserved_internAll {es : List TypeExpr}
    (hes : ∀ e ∈ es, ∀ t : Table, P t → P (t.intern e).2) (h : P t) : P (t.internAll es).2 := by
  induction es generalizing t with
  | nil => exact h
  | cons e es ih =>
    have hx := hes e List.mem_cons_self t h
    rw [internAll_cons_snd]
    rcases hi : t.intern e with ⟨err | d, u⟩
    · rwa [hi] at hx
    · rw [hi] at hx
      exact ih (fun e he => hes e (List.mem_cons_of_mem _ he)) hx

variable (hP : Preserved P)

include hP

theorem Preserved.lower (e : TypeExpr) (h : P t) : P (t.lower e).2 := by
  induction e using TypeExpr.partsInduction generalizing t with
  | parts e ih =>
    have hparts : ∀ p ∈ e.parts, ∀ t : Table, P t → P (t.intern p).2 :=
      fun p hp t ht => hP.settle (fun s => lower_ne_pending) (ih p hp ht)
    cases e with
    | name n =>
      rw [Table.lower]
      split <;> exact h
    | literal value =>
      rw [Table.lower]
      exact h
    | bigint text =>
      rw [Table.lower]
      split <;> exact h
    | array element =>
      rw [Table.lower, shaped_snd]
      exact hparts element (List.mem_singleton_self _) t h
    | union members =>
      rw [Table.lower, shaped_snd]
      exact preserved_internAll hparts h
    | record fields =>
      have hx := preserved_internAll hparts h
      rw [TypeExpr.parts, internAll_map_snd] at hx
      rw [Table.lower, shaped_snd]
      exact hx

/-- What new entries preserve is so after any call, whether it fails or not. -/
theorem Preserved.intern (e : TypeExpr) (h : P t) : P (t.intern e).2 :=
  hP.settle (fun _ => lower_ne_pending) (hP.lower e h)

theorem Preserved.internEach (es : List TypeExpr) (h : P t) : P (t.internEach es) := by
  induction es generalizing t with
  | nil => exact h
  | cons e es ih => exact ih (hP.intern e h)

end

/-! ### Entries stay -/

theorem extends_inline (t : Table) (s : Shape) : t.Extends (t.inline s).2 := by
  rcases t.inline_cases s with ⟨d, a, -, -, hi⟩ | ⟨-, hi⟩
  · rw [hi]
    exact .refl t
  · rw [hi]
    exact extends_alloc t _

theorem preserved_extends (t : Table) : Preserved t.Extends :=
  fun u s _ h => h.trans (extends_inline u s)

theorem extends_lower (t : Table) (e : TypeExpr) : t.Extends (t.lower e).2 :=
  (preserved_extends t).lower e (.refl t)

/-- No call changes an entry that is there, and none adds a name. -/
theorem extends_intern (t : Table) (e : TypeExpr) : t.Extends (t.intern e).2 :=
  (preserved_extends t).intern e (.refl t)

theorem extends_internEach (t : Table) (es : List TypeExpr) : t.Extends (t.internEach es) :=
  (preserved_extends t).internEach es (.refl t)

theorem internEach_append (t : Table) (es fs : List TypeExpr) :
    t.internEach (es ++ fs) = (t.internEach es).internEach fs := by
  induction es generalizing t with
  | nil => rfl
  | cons e es ih => exact ih _

theorem eachCalls_append (t : Table) (es fs : List TypeExpr) :
    t.eachCalls (es ++ fs) = t.eachCalls es ++ (t.internEach es).eachCalls fs := by
  induction es generalizing t with
  | nil => rfl
  | cons e es ih =>
    rw [List.cons_append, eachCalls, eachCalls, ih, List.append_assoc]
    rfl

theorem mem_eachCalls (done rest : List TypeExpr)
    (h : ((t.internEach done).intern e).1 = .ok d) : (e, d) ∈ t.eachCalls (done ++ e :: rest) := by
  have hgiven : given e ((t.internEach done).intern e) = [(e, d)] := by
    rw [show (t.internEach done).intern e = (.ok d, _) from Prod.ext h rfl]
    rfl
  rw [eachCalls_append, eachCalls, calls, hgiven]
  simp

/-! ### Parts come first -/

/-- Whether a table is tidy and inline entries come after those that they refer to. -/
structure Sound (t : Table) : Prop where
  tidy : t.Tidy
  below : ∀ {d s}, t.HasInline d s → ∀ c ∈ s.children, c < d

theorem children_of_same {a b : Shape} (h : a.same b) : a.children = b.children := by
  cases a <;> cases b <;> simp_all [Shape.same, Shape.children]

theorem Sound.lt_inline (h : t.Sound) (hc : ∀ c ∈ s.children, c < t.entries.size) :
    ∀ c ∈ s.children, c < (t.inline s).1 := by
  rcases t.inline_cases s with ⟨d, a, hd, ha, hi⟩ | ⟨-, hi⟩
  · rw [hi, ← children_of_same ha]
    exact h.below hd
  · rw [hi]
    exact hc

theorem Sound.inline (h : t.Sound) (hc : ∀ c ∈ s.children, c < t.entries.size) :
    (t.inline s).2.Sound := by
  refine ⟨(inline_spec h.tidy hc).1, fun {d a} hd => ?_⟩
  rcases t.inline_cases s with ⟨_, _, _, _, hi⟩ | ⟨-, hi⟩
  · rw [hi] at hd
    exact h.below hd
  · rw [hi, HasInline, entry_alloc] at hd
    split_ifs at hd with he
    · cases hd
      exact he ▸ hc
    · exact h.below hd

theorem Sound.setShape {n : String} {a : Shape} (h : t.Sound)
    (he : t.entries[d]? = some ⟨some n, a⟩) (hc : ∀ c ∈ s.children, c < t.entries.size) :
    (t.setShape d s).Sound :=
  ⟨h.tidy.setShape he rfl hc, fun hi => h.below ((hasInline_setShape he rfl).1 hi)⟩

/-- What calls that were made between two states of a table come to: each gave an entry that
spells its expression, and whatever has a record in it got one that was not given before. -/
structure Made (t : Table) (L : List Call) (t' : Table) : Prop where
  keeps : t.Keeps t'
  size : t.entries.size ≤ t'.entries.size
  sound : t'.Sound
  spells : ∀ p ∈ L, t'.Spells p.1 p.2
  new : ∀ p ∈ L, 0 < p.1.records → t.entries.size ≤ p.2
  fresh : L.Pairwise fun p q => 0 < q.1.records → p.2 ≠ q.2

namespace Made

theorem nil (h : t'.Sound) (hk : t.Keeps t') (hs : t.entries.size ≤ t'.entries.size) :
    Made t [] t' :=
  ⟨hk, hs, h, by simp, by simp, .nil⟩

theorem append (h : Made t L t') (h' : Made t' M u) : Made t (L ++ M) u where
  keeps := h.keeps.trans h'.keeps
  size := Nat.le_trans h.size h'.size
  sound := h'.sound
  spells p hp := (List.mem_append.1 hp).elim (fun hp => (h.spells p hp).mono h'.keeps) (h'.spells p)
  new p hp hr := (List.mem_append.1 hp).elim (fun hp => h.new p hp hr)
    fun hp => Nat.le_trans h.size (h'.new p hp hr)
  fresh := by
    refine List.pairwise_append.2 ⟨h.fresh, h'.fresh, fun p hp q hq hr => ?_⟩
    have hlt := (h.spells p hp).lt h.sound.tidy
    exact Nat.ne_of_lt (Nat.lt_of_lt_of_le hlt (h'.new q hq hr))

theorem snoc (h : Made t L t') (hx : t'.Extends u) (hu : u.Sound) (hd : u.Spells e d)
    (hlt : ∀ p ∈ L, p.2 < d) (hnew : 0 < e.records → t.entries.size ≤ d) :
    Made t (L ++ [(e, d)]) u where
  keeps := h.keeps.trans hx.keeps
  size := Nat.le_trans h.size hx.size
  sound := hu
  spells p hp := by
    rcases List.mem_append.1 hp with hp | hp
    · exact (h.spells p hp).mono hx.keeps
    · rw [List.mem_singleton.1 hp]
      exact hd
  new p hp hr := by
    rcases List.mem_append.1 hp with hp | hp
    · exact h.new p hp hr
    · rw [List.mem_singleton.1 hp] at hr ⊢
      exact hnew hr
  fresh := by
    refine List.pairwise_append.2 ⟨h.fresh, List.pairwise_singleton _ _, fun p hp q hq _ => ?_⟩
    rw [List.mem_singleton.1 hq]
    exact Nat.ne_of_lt (hlt p hp)

end Made

/-! ### Calls for an expression -/

/-- How what an expression comes to lies to the entries that its parts were given, where calls
began with some number of entries. -/
def Lowered.Above (size : Nat) (e : TypeExpr) (L : List Call) : Lowered → Prop
  | .known _ => L = [] ∧ e.records = 0
  | .fresh s => (∀ p ∈ L, ∃ c ∈ s.children, p.2 ≤ c) ∧
      (0 < e.records → (∀ a : Shape, a.same s = false) ∨ ∃ c ∈ s.children, size ≤ c)

theorem settle_made {r : Result Lowered} (h : Made t L r.2)
    (hr : ∀ l, r.1 = .ok l → l.Is r.2 e ∧ l.Above t.entries.size e L) :
    Made t (L ++ given e (settle r)) (settle r).2 ∧
      ∀ d, (settle r).1 = .ok d → (∀ p ∈ L, p.2 < d) ∧ (0 < e.records → t.entries.size ≤ d) := by
  obtain ⟨(err | d | s), u⟩ := r
  · refine ⟨?_, fun d hd => by cases hd⟩
    simpa [settle, given] using h
  · obtain ⟨hn, rfl, hrec⟩ := hr _ rfl
    have hzero : ¬0 < e.records := by omega
    refine ⟨?_, fun _ _ => ⟨by simp, fun h => absurd h hzero⟩⟩
    exact h.snoc (.refl u) h.sound (.inl hn) (by simp) fun h => absurd h hzero
  · obtain ⟨⟨hl, hc⟩, hL, hrec⟩ := hr _ rfl
    have hlt : ∀ p ∈ L, p.2 < (u.inline s).1 := fun p hp => by
      obtain ⟨c, hcs, hpc⟩ := hL p hp
      exact Nat.lt_of_le_of_lt hpc (h.sound.lt_inline hc c hcs)
    have hnew : 0 < e.records → t.entries.size ≤ (u.inline s).1 := by
      intro hpos
      rcases hrec hpos with hfresh | ⟨c, hcs, hle⟩
      · -- a record is not found again
        rcases u.inline_cases s with ⟨-, a, -, ha, -⟩ | ⟨-, hi⟩
        · rw [hfresh a] at ha
          cases ha
        · rw [hi]
          exact h.size
      · exact Nat.le_trans hle (Nat.le_of_lt (h.sound.lt_inline hc c hcs))
    have hspells : (u.inline s).2.Spells e (u.inline s).1 :=
      (settle_spec (r := (.ok (.fresh s), u)) (t := u) rfl fun l v hv => by
        cases hv
        exact ⟨h.sound.tidy, .refl u, hl, hc⟩).2.2
    refine ⟨h.snoc (extends_inline u s) (h.sound.inline hc) hspells hlt hnew, fun d hd => ?_⟩
    obtain rfl : (u.inline s).1 = d := Except.ok.inj hd
    exact ⟨hlt, hnew⟩

theorem memberCalls_cons (t : Table) (e : TypeExpr) (es : List TypeExpr) :
    t.memberCalls (e :: es) = t.calls e ++ match t.intern e with
      | (.ok _, u) => u.memberCalls es
      | (.error _, _) => [] := rfl

theorem fieldCalls_eq (t : Table) (fs : List (String × TypeExpr)) :
    t.fieldCalls fs = t.memberCalls (fs.map (·.2)) := by
  induction fs generalizing t with
  | nil => rfl
  | cons f fs ih =>
    obtain ⟨name, e⟩ := f
    rw [fieldCalls, List.map_cons, memberCalls]
    obtain ⟨err | d, u⟩ := settle (t.lower e)
    · rfl
    · exact congrArg _ (ih u)

/-- What is made on the way to what an expression comes to, in whatever table. -/
def PartsMade (e : TypeExpr) : Prop :=
  ∀ t : Table, t.Sound → Made t (t.partCalls e) (t.lower e).2 ∧
    ∀ l, (t.lower e).1 = .ok l → l.Above t.entries.size e (t.partCalls e)

theorem PartsMade.intern (h : PartsMade e) (ht : t.Sound) :
    Made t (t.calls e) (t.intern e).2 ∧ ∀ d, (t.intern e).1 = .ok d →
      (∀ p ∈ t.calls e, p.2 ≤ d) ∧ (0 < e.records → t.entries.size ≤ d) := by
  obtain ⟨hm, hd⟩ := settle_made (h t ht).1 fun l hl =>
    ⟨(lower_spec ht.tidy (Prod.ext hl rfl)).2.2, (h t ht).2 l hl⟩
  refine ⟨hm, fun d hi => ⟨fun p hp => ?_, (hd d hi).2⟩⟩
  rcases List.mem_append.1 hp with hp | hp
  · exact Nat.le_of_lt ((hd d hi).1 p hp)
  · rw [show t.intern e = (.ok d, (t.intern e).2) from Prod.ext hi rfl] at hp
    rw [given, List.mem_singleton] at hp
    exact Nat.le_of_eq (congrArg Prod.snd hp)

theorem members_made {es : List TypeExpr} (h : ∀ e ∈ es, PartsMade e) (ht : t.Sound) :
    Made t (t.memberCalls es) (t.internAll es).2 ∧ ∀ ds, (t.internAll es).1 = .ok ds →
      (∀ p ∈ t.memberCalls es, ∃ d ∈ ds, p.2 ≤ d) ∧
        (0 < allRecords es → ∃ d ∈ ds, t.entries.size ≤ d) := by
  induction es generalizing t with
  | nil =>
    refine ⟨.nil ht (.refl t) (Nat.le_refl _), fun ds _ => ⟨?_, ?_⟩⟩
    · simp [memberCalls]
    · simp [allRecords]
  | cons e es ih =>
    obtain ⟨hm, hd⟩ := (h e List.mem_cons_self).intern ht
    rw [memberCalls_cons, internAll_cons_snd]
    rcases hi : t.intern e with ⟨err | d, u⟩
    · rw [hi] at hm
      refine ⟨by simpa using hm, fun ds hds => ?_⟩
      obtain ⟨d, u', ds₁, hi', -, -⟩ := internAll_cons_eq_ok.1 (Prod.ext hds rfl)
      rw [hi] at hi'
      cases hi'
    · rw [hi] at hm hd
      obtain ⟨hms, hds⟩ := ih (fun e he => h e (List.mem_cons_of_mem _ he)) hm.sound
      refine ⟨hm.append hms, fun ds hok => ?_⟩
      obtain ⟨d', u', ds₁, hi', hes, rfl⟩ := internAll_cons_eq_ok.1 (Prod.ext hok rfl)
      rw [hi] at hi'
      cases hi'
      obtain ⟨hle, hrec⟩ := hd d rfl
      obtain ⟨hle', hrec'⟩ := hds ds₁ (congrArg Prod.fst hes)
      refine ⟨fun p hp => ?_, fun hpos => ?_⟩
      · rcases List.mem_append.1 hp with hp | hp
        · exact ⟨d, List.mem_cons_self, hle p hp⟩
        · obtain ⟨c, hc, hpc⟩ := hle' p hp
          exact ⟨c, List.mem_cons_of_mem _ hc, hpc⟩
      · rw [allRecords] at hpos
        rcases Nat.eq_zero_or_pos e.records with hz | hz
        · obtain ⟨c, hc, hsize⟩ := hrec' (by omega)
          exact ⟨c, List.mem_cons_of_mem _ hc, Nat.le_trans hm.size hsize⟩
        · exact ⟨d, List.mem_cons_self, hrec hz⟩

theorem PartsMade.leaf (hc : ∀ t : Table, t.partCalls e = []) (hr : e.records = 0)
    (hl : ∀ t : Table, (t.lower e).2 = t) : PartsMade e := by
  intro t ht
  rw [hc, hl]
  refine ⟨.nil ht (.refl t) (Nat.le_refl _), fun l _ => ?_⟩
  cases l with
  | known d => exact ⟨rfl, hr⟩
  | fresh s => exact ⟨by simp, by simp [hr]⟩

theorem partsMade (e : TypeExpr) : PartsMade e := by
  induction e using TypeExpr.partsInduction with
  | parts e ih =>
    cases e with
    | name n =>
      refine .leaf (fun t => by simp [partCalls]) (by simp [TypeExpr.records]) fun t => ?_
      rw [lower]
      split <;> rfl
    | literal value =>
      exact .leaf (fun t => by simp [partCalls]) (by simp [TypeExpr.records]) fun t => by rw [lower]
    | bigint text =>
      refine .leaf (fun t => by simp [partCalls]) (by simp [TypeExpr.records]) fun t => ?_
      rw [lower]
      split <;> rfl
    | array element =>
      intro t ht
      obtain ⟨hm, hd⟩ := (ih element (List.mem_singleton_self _)).intern ht
      rw [partCalls, lower, shaped_snd]
      refine ⟨hm, fun l hl => ?_⟩
      obtain ⟨d, hok, rfl⟩ := shaped_eq hl
      obtain ⟨hle, hrec⟩ := hd d hok
      rw [Lowered.Above, TypeExpr.records]
      exact ⟨fun p hp => ⟨d, List.mem_singleton_self d, hle p hp⟩,
        fun hpos => .inr ⟨d, List.mem_singleton_self d, hrec hpos⟩⟩
    | union members =>
      intro t ht
      obtain ⟨hm, hds⟩ := members_made ih ht
      rw [partCalls, lower, shaped_snd]
      refine ⟨hm, fun l hl => ?_⟩
      obtain ⟨ds, hok, rfl⟩ := shaped_eq hl
      obtain ⟨hle, hrec⟩ := hds ds hok
      rw [Lowered.Above, TypeExpr.records]
      exact ⟨hle, fun hpos => .inr (hrec hpos)⟩
    | record fields =>
      intro t ht
      obtain ⟨hm, hds⟩ := members_made ih ht
      rw [TypeExpr.parts, internAll_map_snd] at hm hds
      rw [partCalls, fieldCalls_eq, lower, shaped_snd]
      refine ⟨hm, fun l hl => ?_⟩
      obtain ⟨ds, hok, rfl⟩ := shaped_eq hl
      obtain ⟨hle, -⟩ := hds (ds.map (·.2)) (by rw [hok]; rfl)
      exact ⟨hle, fun _ => .inl fun a => by cases a <;> rfl⟩

theorem calls_made (h : t.Sound) (e : TypeExpr) : Made t (t.calls e) (t.intern e).2 :=
  ((partsMade e).intern h).1

theorem eachCalls_made (h : t.Sound) (es : List TypeExpr) :
    Made t (t.eachCalls es) (t.internEach es) := by
  induction es generalizing t with
  | nil => exact .nil h (.refl t) (Nat.le_refl _)
  | cons e es ih =>
    have hm := calls_made h e
    exact hm.append (ih hm.sound)

/-! ### Calls for declarations -/

/-- Whether declared names lead to entries that have a name. -/
def Named (t : Table) : Prop :=
  ∀ n d, t.lookup n = some d → ∃ m s, t.entries[d]? = some ⟨some m, s⟩

theorem Named.extends (h : t.Named) (hx : t.Extends u) : u.Named := by
  intro n d hn
  rw [hx.keeps.lookup] at hn
  obtain ⟨m, s, hd⟩ := h n d hn
  exact ⟨m, s, (hx.entry d (lt_of_entry hd)).trans hd⟩

theorem Named.setShape (h : t.Named) (d : TypeId) (s : Shape) : (t.setShape d s).Named := by
  intro n x hn
  obtain ⟨m, a, hx⟩ := h n x hn
  rw [entry_setShape, hx]
  split_ifs
  · exact ⟨m, s, rfl⟩
  · exact ⟨m, a, rfl⟩

theorem body_snd (t : Table) (e : TypeExpr) : (t.body e).2 = (t.lower e).2 := by
  cases e with
  | name n =>
    rw [body, lower]
    split <;> split <;> rfl
  | _ =>
    rw [body]
    · split <;> simp_all
    · simp

theorem fillCalls_made {types : Declarations} (h : t.Sound) (hn : t.Named)
    (hf : fill types t = .ok t') : Made t (fillCalls types t) t' := by
  induction types generalizing t with
  | nil =>
    cases hf
    exact .nil h (.refl _) (Nat.le_refl _)
  | cons f rest ih =>
    obtain ⟨name, e⟩ := f
    rw [fill] at hf
    rw [fillCalls]
    split_ifs at hf ⊢ with ha
    · exact ih h hn hf
    · have hm := ((partsMade e) t h).1
      rw [← body_snd] at hm
      have hx := extends_lower t e
      rw [← body_snd] at hx
      rcases hb : t.body e with ⟨err | s, u⟩
      · rw [hb] at hf
        cases hf
      · rw [hb] at hf hm hx
        refine hm.append ?_
        have hu := hn.extends hx
        dsimp only at hf ⊢
        rcases hd : u.lookup name with _ | d
        · rw [hd] at hf
          exact ih hm.sound hu hf
        · rw [hd] at hf
          obtain ⟨m, a, hda⟩ := hu name d hd
          have hset := hm.sound.setShape hda (body_spec h.tidy hb).2.2.2
          have hmade := ih hset (hu.setShape d s) hf
          have hsize : (u.setShape d s).entries.size = u.entries.size := by simp [Table.setShape]
          exact (Made.nil hset (keeps_setShape hda rfl) (Nat.le_of_eq hsize.symm)).append hmade

end Table

end Conform
