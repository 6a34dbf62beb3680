import Conform.Proofs.Document.Requests

/-! Which declarations have a table. Aliases have to lead to a declaration that is none, and bodies
may mention declared names only; the order of declarations plays no part. -/

namespace Conform

mutual

/-- The names that an expression mentions. -/
def TypeExpr.names : TypeExpr → List String
  | .name n => [n]
  | .literal _ | .bigint _ => []
  | .array e => e.names
  | .union es => allNames es
  | .record fs => fieldsNames fs

def allNames : List TypeExpr → List String
  | [] => []
  | e :: es => e.names ++ allNames es

def fieldsNames : List (String × TypeExpr) → List String
  | [] => []
  | (_, e) :: fs => e.names ++ fieldsNames fs

end

mutual

/-- Whether names in an expression are declared or keywords, and big integers are integers. -/
def TypeExpr.WellFormed (types : Table.Declarations) : TypeExpr → Prop
  | .name n => (Fields.get? n types).isSome ∨ (Keyword.ofName? n).isSome
  | .literal _ => True
  | .bigint text => (BigInt.parse? text).isSome
  | .array e => e.WellFormed types
  | .union es => allWellFormed types es
  | .record fs => fieldsWellFormed types fs

def allWellFormed (types : Table.Declarations) : List TypeExpr → Prop
  | [] => True
  | e :: es => e.WellFormed types ∧ allWellFormed types es

def fieldsWellFormed (types : Table.Declarations) : List (String × TypeExpr) → Prop
  | [] => True
  | (_, e) :: fs => e.WellFormed types ∧ fieldsWellFormed types fs

end

namespace Table

/-- Whether a name refers to a declaration: its own, or what the name refers to that it is an
alias of. -/
inductive Refers (types : Declarations) : String → String → Prop
  | own {n : String} {e : TypeExpr} : Fields.get? n types = some e → e.isAlias = false →
      Refers types n n
  | through {n m k : String} : Fields.get? n types = some (.name m) →
      Keyword.ofName? m = none → Refers types m k → Refers types n k

/-- Whether a declaration is in order among others. -/
def WellFormed (types : Declarations) (f : String × TypeExpr) : Prop :=
  if f.2.isAlias then ∃ m, Refers types f.1 m else f.2.WellFormed types

end Table

/-! ### Declarations that agree -/

section

variable {types types' : Table.Declarations}

mutual

theorem TypeExpr.WellFormed.congr {e : TypeExpr}
    (h : ∀ n ∈ e.names, Fields.get? n types' = Fields.get? n types) :
    e.WellFormed types' ↔ e.WellFormed types := by
  cases e with
  | name n => simp only [TypeExpr.WellFormed, h n (by simp [TypeExpr.names])]
  | literal l => exact Iff.rfl
  | bigint text => exact Iff.rfl
  | array e => exact TypeExpr.WellFormed.congr (e := e) h
  | union es => exact allWellFormed_congr h
  | record fs => exact fieldsWellFormed_congr h

theorem allWellFormed_congr {es : List TypeExpr}
    (h : ∀ n ∈ allNames es, Fields.get? n types' = Fields.get? n types) :
    allWellFormed types' es ↔ allWellFormed types es := by
  cases es with
  | nil => exact Iff.rfl
  | cons e es =>
    exact and_congr (TypeExpr.WellFormed.congr fun n hn => h n (List.mem_append_left _ hn))
      (allWellFormed_congr fun n hn => h n (List.mem_append_right _ hn))

theorem fieldsWellFormed_congr {fs : List (String × TypeExpr)}
    (h : ∀ n ∈ fieldsNames fs, Fields.get? n types' = Fields.get? n types) :
    fieldsWellFormed types' fs ↔ fieldsWellFormed types fs := by
  cases fs with
  | nil => exact Iff.rfl
  | cons f fs =>
    exact and_congr (TypeExpr.WellFormed.congr fun n hn => h n (List.mem_append_left _ hn))
      (fieldsWellFormed_congr fun n hn => h n (List.mem_append_right _ hn))

end

end

namespace Table

variable {types types' : Declarations} {n m k : String}

theorem Refers.unique (h : Refers types n m) (h' : Refers types n k) : m = k := by
  induction h with
  | own hn hb =>
    cases h' with
    | own => rfl
    | through hn' hk' =>
      obtain rfl := Option.some.inj (hn.symm.trans hn')
      simp [TypeExpr.isAlias, hk'] at hb
  | through hn hk _ ih =>
    cases h' with
    | own hn' hb' =>
      obtain rfl := Option.some.inj (hn.symm.trans hn')
      simp [TypeExpr.isAlias, hk] at hb'
    | through hn' _ h' =>
      obtain rfl := TypeExpr.name.inj (Option.some.inj (hn.symm.trans hn'))
      exact ih h'

theorem Refers.declared (h : Refers types n m) :
    ∃ e, Fields.get? m types = some e ∧ e.isAlias = false := by
  induction h with
  | own hn hb => exact ⟨_, hn, hb⟩
  | through _ _ _ ih => exact ih

/-- A name refers to the same among declarations that agree on all names that it leads to. -/
theorem Refers.congr {P : String → Prop}
    (hP : ∀ n, P n → Fields.get? n types' = Fields.get? n types)
    (hclosed : ∀ n m, P n → Fields.get? n types = some (.name m) → P m) (hn : P n)
    (h : Refers types n m) : Refers types' n m := by
  induction h with
  | own hd hb => exact .own ((hP _ hn).trans hd) hb
  | through hd hk _ ih => exact .through ((hP _ hn).trans hd) hk (ih (hclosed _ _ hn hd))

/-! ### Expressions -/

theorem exists_settle {r : Result Lowered} :
    (∃ d u, settle r = (.ok d, u)) ↔ ∃ l u, r = (.ok l, u) := by
  constructor
  · rintro ⟨d, u, h⟩
    rcases settle_eq_ok h with h | ⟨s, v, h, -⟩
    · exact ⟨_, _, h⟩
    · exact ⟨_, _, h⟩
  · rintro ⟨l, u, rfl⟩
    cases l with
    | known d => exact ⟨d, u, rfl⟩
    | fresh s => exact ⟨_, _, rfl⟩

theorem exists_shaped {α : Type} {f : α → Shape} {r : Result α} :
    (∃ l u, shaped f r = (.ok l, u)) ↔ ∃ a u, r = (.ok a, u) := by
  constructor
  · rintro ⟨l, u, h⟩
    obtain ⟨a, h, -⟩ := shaped_eq_ok h
    exact ⟨a, u, h⟩
  · rintro ⟨a, u, rfl⟩
    exact ⟨_, u, rfl⟩

/-- Whether a table has entries for declared names and no others. -/
def Lists (types : Declarations) (t : Table) : Prop :=
  ∀ n, (t.lookup n).isSome ↔ (Fields.get? n types).isSome

theorem Lists.of_names {t u : Table} (h : Lists types t) (hn : u.names = t.names) :
    Lists types u := by
  intro n
  rw [← h n, Table.lookup, Table.lookup, hn]

theorem Lists.intern {t u : Table} {e : TypeExpr} {d : TypeId} (h : Lists types t)
    (hi : t.intern e = (.ok d, u)) : Lists types u :=
  h.of_names (Document.names_of_intern hi)

theorem Declares.lists {t : Table} (h : Declares types t) : Lists types t := by
  refine fun n => ⟨fun hl => ?_, h.declared⟩
  obtain ⟨d, hl⟩ := Option.isSome_iff_exists.1 hl
  cases h.denotes hl with
  | own hg => rw [hg]; rfl
  | through hg => rw [hg]; rfl

mutual

theorem exists_lower {t : Table} {e : TypeExpr} (h : Lists types t) :
    (∃ l u, t.lower e = (.ok l, u)) ↔ e.WellFormed types := by
  cases e with
  | name n =>
    rw [TypeExpr.WellFormed, ← h n]
    simp only [lower]
    cases t.lookup n with
    | some d => simp
    | none => cases Keyword.ofName? n <;> simp
  | literal l => simp [lower, TypeExpr.WellFormed]
  | bigint text =>
    rw [TypeExpr.WellFormed]
    simp only [lower]
    cases BigInt.parse? text <;> simp
  | array e =>
    simp only [lower]
    exact exists_shaped.trans (exists_settle.trans (exists_lower (e := e) h))
  | union es =>
    simp only [lower]
    exact exists_shaped.trans (exists_internAll h)
  | record fs =>
    simp only [lower]
    exact exists_shaped.trans (exists_internFields h)

theorem exists_internAll {t : Table} {es : List TypeExpr} (h : Lists types t) :
    (∃ ds u, t.internAll es = (.ok ds, u)) ↔ allWellFormed types es := by
  cases es with
  | nil => simp [internAll, allWellFormed]
  | cons e es =>
    rw [allWellFormed, ← exists_lower (e := e) h, ← exists_settle]
    constructor
    · rintro ⟨ds, u, hi⟩
      obtain ⟨d, t₁, ds₁, hd, hds, -⟩ := internAll_cons_eq_ok.1 hi
      exact ⟨⟨d, t₁, hd⟩, (exists_internAll (h.intern hd)).1 ⟨ds₁, u, hds⟩⟩
    · rintro ⟨⟨d, t₁, hd⟩, hes⟩
      obtain ⟨ds₁, u, hds⟩ := (exists_internAll (h.intern hd)).2 hes
      exact ⟨_, u, internAll_cons_eq_ok.2 ⟨d, t₁, ds₁, hd, hds, rfl⟩⟩

theorem exists_internFields {t : Table} {fs : List (String × TypeExpr)} (h : Lists types t) :
    (∃ ds u, t.internFields fs = (.ok ds, u)) ↔ fieldsWellFormed types fs := by
  cases fs with
  | nil => simp [internFields, fieldsWellFormed]
  | cons f fs =>
    obtain ⟨name, e⟩ := f
    rw [fieldsWellFormed, ← exists_lower (e := e) h, ← exists_settle]
    constructor
    · rintro ⟨ds, u, hi⟩
      obtain ⟨d, t₁, ds₁, hd, hds, -⟩ := internFields_cons_eq_ok.1 hi
      exact ⟨⟨d, t₁, hd⟩, (exists_internFields (h.intern hd)).1 ⟨ds₁, u, hds⟩⟩
    · rintro ⟨⟨d, t₁, hd⟩, hes⟩
      obtain ⟨ds₁, u, hds⟩ := (exists_internFields (h.intern hd)).2 hes
      exact ⟨_, u, internFields_cons_eq_ok.2 ⟨d, t₁, ds₁, hd, hds, rfl⟩⟩

end

theorem exists_intern_iff {t : Table} {e : TypeExpr} (h : Lists types t) :
    Document.Interns t e ↔ e.WellFormed types := by
  rw [← exists_lower h, ← exists_settle]
  rfl

/-! ### Aliases -/

/-- A name that refers to a declaration after some steps. -/
inductive RefersIn (types : Declarations) : Nat → String → String → Prop
  | own {n : String} {e : TypeExpr} : Fields.get? n types = some e → e.isAlias = false →
      RefersIn types 0 n n
  | through {i : Nat} {n m k : String} : Fields.get? n types = some (.name m) →
      Keyword.ofName? m = none → RefersIn types i m k → RefersIn types (i + 1) n k

theorem Refers.counted (h : Refers types n m) : ∃ i, RefersIn types i n m := by
  induction h with
  | own hn hb => exact ⟨0, .own hn hb⟩
  | through hn hk _ ih =>
    obtain ⟨i, hi⟩ := ih
    exact ⟨i + 1, .through hn hk hi⟩

theorem RefersIn.unique {i j : Nat} (h : RefersIn types i n m) (h' : RefersIn types j n k) :
    i = j := by
  induction h generalizing j with
  | own hn hb =>
    cases h' with
    | own => rfl
    | through hn' hk' =>
      obtain rfl := Option.some.inj (hn.symm.trans hn')
      simp [TypeExpr.isAlias, hk'] at hb
  | through hn hk _ ih =>
    cases h' with
    | own hn' hb' =>
      obtain rfl := Option.some.inj (hn.symm.trans hn')
      simp [TypeExpr.isAlias, hk] at hb'
    | through hn' _ h' =>
      obtain rfl := TypeExpr.name.inj (Option.some.inj (hn.symm.trans hn'))
      rw [ih h']

theorem get?_filter_of_ne {α : Type _} {name : String} {fs : List (String × α)} (h : n ≠ name) :
    Fields.get? n (fs.filter (·.1 != name)) = Fields.get? n fs := by
  induction fs with
  | nil => rfl
  | cons f fs ih =>
    obtain ⟨k, w⟩ := f
    rw [List.filter_cons, Fields.get?]
    by_cases hk : k = n
    · rw [if_pos (by simpa [hk] using h), Fields.get?]
      simp [hk]
    · rw [if_neg hk, ← ih]
      split_ifs
      · rw [Fields.get?, if_neg hk]
      · rfl

theorem get?_filter_self {α : Type _} (name : String) (fs : List (String × α)) :
    Fields.get? name (fs.filter (·.1 != name)) = none := by
  rw [Option.eq_none_iff_forall_ne_some]
  intro v hv
  obtain ⟨w, hw⟩ := Fields.get?_isSome_iff.1 (Option.isSome_iff_exists.2 ⟨v, hv⟩)
  simp at hw

theorem length_filter_lt {fs : Declarations} {e : TypeExpr} (h : Fields.get? n fs = some e) :
    (fs.filter (·.1 != n)).length < fs.length := by
  obtain ⟨v, hv⟩ := Fields.get?_isSome_iff.1 (Option.isSome_iff_exists.2 ⟨e, h⟩)
  exact List.length_filter_lt_length_iff_exists.2 ⟨(n, v), hv, by simp⟩

/-- A name that refers to a declaration is followed to its end, as long as nothing on the way was
passed before. -/
theorem exists_follow {t : Table} {i fuel : Nat} {unseen : Declarations}
    (hown : ∀ {n e}, Fields.get? n types = some e → e.isAlias = false → (t.lookup n).isSome)
    (hu : ∀ j ≤ i, ∀ n k, RefersIn types j n k → Fields.get? n unseen = Fields.get? n types)
    (hf : unseen.length ≤ fuel) (h : RefersIn types i n m) :
    ∃ d, t.follow types fuel unseen n = .ok d := by
  induction h generalizing fuel unseen with
  | own hn hb =>
    obtain ⟨d, hd⟩ := Option.isSome_iff_exists.1 (hown hn hb)
    refine ⟨d, ?_⟩
    unfold follow
    simp only [hd]
  | @through i n m k hn hk hm ih =>
    unfold follow
    cases hl : t.lookup n with
    | some d => exact ⟨d, rfl⟩
    | none =>
      have hget : Fields.get? n unseen = some (.name m) :=
        (hu _ (Nat.le_refl _) n k (.through hn hk hm)).trans hn
      have hshort := length_filter_lt hget
      cases fuel with
      | zero => omega
      | succ fuel =>
        simp only [hget]
        refine ih (fun j hj x y hx => ?_) (by omega)
        rw [← hu j (by omega) x y hx]
        refine get?_filter_of_ne ?_
        rintro rfl
        have := hx.unique (.through hn hk hm)
        omega

theorem Leads.refers {d : TypeId} (hn : (Fields.names types).Nodup)
    (h : Leads types (slots types) n d) : ∃ m, Refers types n m := by
  induction h with
  | slot hl =>
    obtain ⟨e, he, ha⟩ := lookup_own hn hl
    exact ⟨_, .own he ha⟩
  | through hg hk _ ih =>
    obtain ⟨m, hm⟩ := ih
    exact ⟨m, .through hg hk hm⟩

/-- Aliases are bound exactly if each refers to a declaration. -/
theorem exists_aliases {rest : Declarations} {t : Table} (hn : (Fields.names types).Nodup)
    (ht : Aliased types t) : (∃ t', aliases types rest t = .ok t') ↔
      ∀ f ∈ rest, f.2.isAlias → ∃ m, Refers types f.1 m := by
  induction rest generalizing t with
  | nil => simp [aliases]
  | cons f rest ih =>
    obtain ⟨name, body⟩ := f
    rw [List.forall_mem_cons, aliases]
    split_ifs with ha
    · constructor
      · rintro ⟨t', h⟩
        split at h
        · cases h
        · rename_i d hd
          refine ⟨fun _ => ?_, (ih (ht.bind hn hd)).1 ⟨t', h⟩⟩
          exact (follow_leads ht.leads (ht.own hn) (fun h => h) hd).refers hn
      · rintro ⟨hm, hrest⟩
        obtain ⟨m, hm⟩ := hm ha
        obtain ⟨i, hi⟩ := hm.counted
        obtain ⟨d, hd⟩ := exists_follow (ht.own hn) (fun _ _ _ _ _ => rfl) (Nat.le_refl _) hi
        simp only [hd]
        exact (ih (ht.bind hn hd)).2 hrest
    · simp [ha, ih ht]

/-! ### Bodies -/

theorem exists_body_of_lower {r : Result Lowered} : (∃ s u, (match r with
    | (.error err, t) => (.error err, t)
    | (.ok (.fresh shape), t) => (.ok shape, t)
    | (.ok (.known _), t) => (.ok .pending, t) : Result Shape) = (.ok s, u)) ↔
      ∃ l u, r = (.ok l, u) := by
  constructor
  · rintro ⟨s, u, hs⟩
    split at hs
    · cases hs
    · exact ⟨_, _, rfl⟩
    · exact ⟨_, _, rfl⟩
  · rintro ⟨l, u, rfl⟩
    cases l with
    | known d => exact ⟨_, u, rfl⟩
    | fresh s => exact ⟨s, u, rfl⟩

theorem exists_body {t : Table} {e : TypeExpr} (h : Lists types t) (ha : e.isAlias = false) :
    (∃ s u, t.body e = (.ok s, u)) ↔ e.WellFormed types := by
  have hlower := exists_body_of_lower.trans (exists_lower (e := e) h)
  cases e with
  | name n =>
    obtain ⟨k, hk⟩ : ∃ k, Keyword.ofName? n = some k :=
      Option.isSome_iff_exists.1 (by simpa [TypeExpr.isAlias] using ha)
    simp [body, hk, TypeExpr.WellFormed]
  | _ => exact hlower

theorem names_of_body {t u : Table} {e : TypeExpr} {s : Shape} (h : t.body e = (.ok s, u)) :
    u.names = t.names := by
  rcases body_eq_ok h with ⟨k, -, -, rfl⟩ | ⟨-, hl⟩
  · rfl
  · exact (lower_names rfl hl).1

theorem exists_fill {rest : Declarations} {t : Table} (ht : Lists types t) :
    (∃ t', fill rest t = .ok t') ↔
      ∀ f ∈ rest, f.2.isAlias = false → f.2.WellFormed types := by
  induction rest generalizing t with
  | nil => simp [fill]
  | cons f rest ih =>
    obtain ⟨name, e⟩ := f
    rw [List.forall_mem_cons]
    simp only [fill_cons_eq_ok]
    cases ha : e.isAlias with
    | true => simp [ih ht]
    | false =>
      have hlists : ∀ {s u}, t.body e = (.ok s, u) → Lists types (u.fillSlot name s) :=
        fun hb => (ht.of_names (names_of_body hb)).of_names (names_fillSlot ..)
      rw [← exists_body ht ha]
      constructor
      · rintro ⟨t', ⟨hf, -⟩ | ⟨-, s, u, hb, h⟩⟩
        · cases hf
        · exact ⟨fun _ => ⟨s, u, hb⟩, (ih (hlists hb)).1 ⟨t', h⟩⟩
      · rintro ⟨hb, hall⟩
        obtain ⟨s, u, hb⟩ := hb rfl
        obtain ⟨t', h⟩ := (ih (hlists hb)).2 hall
        exact ⟨t', Or.inr ⟨rfl, s, u, hb, h⟩⟩

theorem Aliased.lists {t : Table} (h : Aliased types t) (hn : (Fields.names types).Nodup)
    (hbound : ∀ f ∈ types, f.2.isAlias → (t.lookup f.1).isSome) : Lists types t := by
  intro n
  constructor
  · intro hl
    obtain ⟨d, hd⟩ := Option.isSome_iff_exists.1 hl
    obtain ⟨m, hm⟩ := (h.leads hd).refers hn
    cases hm with
    | own hg => rw [hg]; rfl
    | through hg => rw [hg]; rfl
  · intro hg
    obtain ⟨e, he⟩ := Option.isSome_iff_exists.1 hg
    cases ha : e.isAlias with
    | true => exact hbound (n, e) ((Fields.get?_eq_some_iff hn).1 he) ha
    | false => exact h.own hn he ha

/-- Declarations have a table exactly if each is in order. -/
theorem exists_ofDeclarations (hn : (Fields.names types).Nodup) :
    (∃ t, ofDeclarations types = .ok t) ↔ ∀ f ∈ types, WellFormed types f := by
  have hslots := slots_aliased types
  have hlists : ∀ {u}, aliases types types (slots types) = .ok u → Lists types u := by
    intro u ha
    obtain ⟨hal, -, hbound⟩ := aliases_aliased hn (fun _ h => h) hslots ha
    exact hal.lists hn hbound
  constructor
  · rintro ⟨t, h⟩ f hf
    rw [ofDeclarations, bind_eq_ok] at h
    obtain ⟨u, ha, hfill⟩ := h
    unfold WellFormed
    split_ifs with hfa
    · exact (exists_aliases hn hslots).1 ⟨u, ha⟩ f hf hfa
    · exact (exists_fill (hlists ha)).1 ⟨t, hfill⟩ f hf (by simpa using hfa)
  · intro hall
    obtain ⟨u, ha⟩ : ∃ u, aliases types types (slots types) = .ok u :=
      (exists_aliases hn hslots).2 fun f hf hfa => by
        simpa only [WellFormed, if_pos hfa] using hall f hf
    obtain ⟨t, hfill⟩ : ∃ t, fill types u = .ok t :=
      (exists_fill (hlists ha)).2 fun f hf hfa => by simpa [WellFormed, hfa] using hall f hf
    exact ⟨t, by rw [ofDeclarations, bind_eq_ok]; exact ⟨u, ha, hfill⟩⟩

end Table

end Conform
