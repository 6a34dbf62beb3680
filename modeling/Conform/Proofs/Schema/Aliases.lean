import Mathlib.Logic.Relation
import Conform.Proofs.Schema.Bodies

/-! Chains of aliases. A chain leads from name to name, whatever the order of the declarations, and
comes to an end: at a declaration that is no alias, at a name that is not declared, or back at a
name that it has passed. -/

namespace Conform.Table

/-- Whether a declaration is another name for `m`. -/
def AliasOf (types : Declarations) (n m : String) : Prop :=
  Fields.get? n types = some (.name m) ∧ Keyword.ofName? m = none

/-- Following names without a bound on their number; `seen` are those that were passed. -/
inductive Walks (types : Declarations) (t : Table) :
    List String → String → Except ReferenceError TypeId → Prop
  | found {seen : List String} {n : String} {d : TypeId} : t.lookup n = some d →
      Walks types t seen n (.ok d)
  | cycle {seen : List String} {n : String} : t.lookup n = none → n ∈ seen →
      Walks types t seen n (.error (.aliasCycle n))
  | unknown {seen : List String} {n : String} : t.lookup n = none → n ∉ seen →
      (∀ m, Fields.get? n types ≠ some (.name m)) → Walks types t seen n (.error (.unknownType n))
  | step {seen : List String} {n m : String} {r : Except ReferenceError TypeId} :
      t.lookup n = none → n ∉ seen → Fields.get? n types = some (.name m) →
      Walks types t (seen ++ [n]) m r → Walks types t seen n r

/-- Binding aliases one after the other, each as far as its walk goes, without a bound. -/
inductive Binds (types : Declarations) : Declarations → Table → Except ReferenceError Table → Prop
  | nil {t : Table} : Binds types [] t (.ok t)
  | other {f : String × TypeExpr} {rest : Declarations} {t : Table}
      {r : Except ReferenceError Table} : f.2.isAlias = false → Binds types rest t r →
      Binds types (f :: rest) t r
  | failed {f : String × TypeExpr} {rest : Declarations} {t : Table} {e : ReferenceError} :
      f.2.isAlias → Walks types t [] f.1 (.error e) → Binds types (f :: rest) t (.error e)
  | bound {f : String × TypeExpr} {rest : Declarations} {t : Table} {d : TypeId}
      {r : Except ReferenceError Table} : f.2.isAlias → Walks types t [] f.1 (.ok d) →
      Binds types rest (t.bind f.1 d) r → Binds types (f :: rest) t r

variable {types : Declarations} {t : Table} {n m k : String}

/-! ### Walks end -/

/-- Names that were passed are gone from the declarations that are not seen yet, so a walk takes no
more steps than there are declarations. -/
theorem walks_follow {fuel : Nat} {unseen : Declarations} {seen : List String}
    (hseen : ∀ m ∈ seen, ∃ k, Fields.get? m types = some (.name k))
    (hu : ∀ m, Fields.get? m unseen = if m ∈ seen then none else Fields.get? m types)
    (hf : unseen.length ≤ fuel) : Walks types t seen n (t.follow types fuel unseen n) := by
  fun_induction follow t types fuel unseen n generalizing seen with
  | case1 _ _ n d hl => exact .found hl
  | case2 unseen n hl fuel m hm ih =>
    have hn : n ∉ seen := by
      intro hn
      rw [hu, if_pos hn] at hm
      cases hm
    have hget : Fields.get? n types = some (.name m) := by rw [← hm, hu, if_neg hn]
    have hshort := length_filter_lt hm
    refine .step hl hn hget (ih ?_ ?_ (by omega))
    · intro k hk
      rcases List.mem_append.1 hk with hk | hk
      · exact hseen k hk
      · rw [List.mem_singleton.1 hk]
        exact ⟨m, hget⟩
    · intro k
      by_cases hkn : k = n
      · rw [hkn, get?_filter_self, if_pos (by simp)]
      · rw [get?_filter_of_ne hkn, hu k]
        simp [hkn]
  | case3 fuel unseen n hl m hm hstuck =>
    -- the name is declared and was not followed, so it is not among the unseen ones
    refine .cycle hl ?_
    by_contra hn
    have hget : Fields.get? n unseen = some (.name m) := by rw [hu, if_neg hn, hm]
    have hshort := length_filter_lt hget
    exact hstuck (fuel - 1) m (by omega) hget
  | case4 fuel unseen n hl _ hname =>
    refine .unknown hl ?_ hname
    intro hn
    obtain ⟨k, hk⟩ := hseen n hn
    exact hname k hk

theorem walks (types : Declarations) (t : Table) (n : String) :
    Walks types t [] n (t.follow types types.length types n) :=
  walks_follow (by simp) (by simp) (Nat.le_refl _)

theorem binds (types rest : Declarations) (t : Table) :
    Binds types rest t (aliases types rest t) := by
  induction rest generalizing t with
  | nil => exact .nil
  | cons f rest ih =>
    obtain ⟨name, body⟩ := f
    rw [aliases]
    split_ifs with ha
    · have hw := walks types t name
      cases hf : t.follow types types.length types name with
      | error e => exact .failed ha (hf ▸ hw)
      | ok d => exact .bound ha (hf ▸ hw) (ih _)
    · exact .other (by simpa using ha) (ih t)

/-! ### Where chains end -/

theorem aliasOf_unique : Relator.RightUnique (AliasOf types) := by
  intro a b c hb hc
  exact TypeExpr.name.inj (Option.some.inj (hb.1.symm.trans hc.1))

theorem not_cycle_of_end (h : Relation.ReflTransGen (AliasOf types) n k)
    (hk : ∀ m, ¬AliasOf types k m) : ¬Relation.TransGen (AliasOf types) n n := by
  induction h using Relation.ReflTransGen.head_induction_on with
  | refl =>
    intro hc
    obtain ⟨m, hm, -⟩ := Relation.TransGen.head'_iff.1 hc
    exact hk m hm
  | head hstep _ ih =>
    intro hc
    obtain ⟨m, hm, hrest⟩ := Relation.TransGen.head'_iff.1 hc
    obtain rfl := aliasOf_unique hstep hm
    exact ih (Relation.TransGen.tail' hrest hstep)

theorem reaches_end (h : Relation.ReflTransGen (AliasOf types) n k) (hk : ∀ m, ¬AliasOf types k m)
    (hm : Relation.ReflTransGen (AliasOf types) n m) :
    Relation.ReflTransGen (AliasOf types) m k := by
  rcases Relation.ReflTransGen.total_of_right_unique aliasOf_unique h hm with hkm | hmk
  · rcases hkm.cases_head with rfl | ⟨x, hx, -⟩
    · exact .refl
    · exact absurd hx (hk x)
  · exact hmk

theorem Refers.reaches (h : Refers types n m) : Relation.ReflTransGen (AliasOf types) n m := by
  induction h with
  | own => exact .refl
  | through hn hk _ ih => exact .head ⟨hn, hk⟩ ih

theorem not_aliasOf_of_undeclared (hn : Fields.get? n types = none) : ¬AliasOf types n m := by
  rintro ⟨hm, -⟩
  rw [hn] at hm
  cases hm

theorem not_refers_of_undeclared (h : Relation.ReflTransGen (AliasOf types) n k)
    (hk : Fields.get? k types = none) : ¬Refers types n m := by
  intro hm
  obtain ⟨e, he, ha⟩ := hm.declared
  have hend : ∀ x, ¬AliasOf types m x := by
    rintro x ⟨hx, hkey⟩
    obtain rfl := Option.some.inj (he.symm.trans hx)
    simp [TypeExpr.isAlias, hkey] at ha
  rcases (reaches_end hm.reaches hend h).cases_head with rfl | ⟨x, hx, -⟩
  · rw [hk] at he
    cases he
  · exact not_aliasOf_of_undeclared hk hx

/-- Whether an error tells how a chain fails. -/
inductive ChainFails (types : Declarations) (n : String) : ReferenceError → Prop
  | unknown {m : String} : Relation.ReflTransGen (AliasOf types) n m →
      Fields.get? m types = none → ChainFails types n (.unknownType m)
  | cycle {m : String} : Relation.ReflTransGen (AliasOf types) n m →
      Relation.TransGen (AliasOf types) m m → ChainFails types n (.aliasCycle m)

theorem Walks.fails {start : String} {seen : List String} {r : Except ReferenceError TypeId}
    (hown : ∀ {n e}, Fields.get? n types = some e → e.isAlias = false → (t.lookup n).isSome)
    (h : Walks types t seen n r) (hstart : Relation.ReflTransGen (AliasOf types) start n)
    (hseen : ∀ m ∈ seen, Relation.TransGen (AliasOf types) m n) {e : ReferenceError}
    (he : r = .error e) : ChainFails types start e := by
  induction h with
  | found => cases he
  | cycle _ hn =>
    cases he
    exact .cycle hstart (hseen _ hn)
  | @unknown _ n hl _ hname =>
    cases he
    refine .unknown hstart ?_
    cases hn : Fields.get? n types with
    | none => rfl
    | some body =>
      have ha : body.isAlias = false := by
        cases body with
        | name m => exact absurd hn (hname m)
        | _ => rfl
      have := hown hn ha
      rw [hl] at this
      cases this
  | @step _ n m _ hl _ hm _ ih =>
    have hstep : AliasOf types n m := by
      refine ⟨hm, ?_⟩
      by_contra hk
      have := hown hm (by simpa [TypeExpr.isAlias, Option.isSome_iff_ne_none] using hk)
      rw [hl] at this
      cases this
    refine ih (hstart.tail hstep) ?_ he
    intro k hk
    rcases List.mem_append.1 hk with hk | hk
    · exact (hseen k hk).tail hstep
    · rw [List.mem_singleton.1 hk]
      exact .single hstep

theorem Aliased.follow_unknown (h : Aliased types t) (hn : (Fields.names types).Nodup)
    (hr : Relation.ReflTransGen (AliasOf types) n k) (hk : Fields.get? k types = none) :
    t.follow types types.length types n = .error (.unknownType k) := by
  have hw := walks types t n
  cases hf : t.follow types types.length types n with
  | ok d =>
    obtain ⟨m, hm⟩ := (follow_leads h.leads (h.own hn) (fun h => h) hf).refers hn
    exact absurd hm (not_refers_of_undeclared hr hk)
  | error e =>
    have hend : ∀ m, ¬AliasOf types k m := fun m => not_aliasOf_of_undeclared hk
    cases (hf ▸ hw).fails (h.own hn) .refl (by simp) rfl with
    | @unknown m hm hdeclared =>
      rcases (reaches_end hr hend hm).cases_head with rfl | ⟨x, hx, -⟩
      · rfl
      · exact absurd hx (not_aliasOf_of_undeclared hdeclared)
    | @cycle m hm hcycle => exact absurd hcycle (not_cycle_of_end (reaches_end hr hend hm) hend)

/-! ### Errors of the passes -/

theorem aliases_error {rest : Declarations} (hn : (Fields.names types).Nodup) (ht : Aliased types t)
    {e : ReferenceError} (h : aliases types rest t = .error e) :
    ∃ f ∈ rest, ChainFails types f.1 e := by
  induction rest generalizing t with
  | nil => cases h
  | cons f rest ih =>
    obtain ⟨name, body⟩ := f
    rw [aliases] at h
    split_ifs at h
    · split at h
      · rename_i e' hf
        cases h
        exact ⟨_, List.mem_cons_self,
          (hf ▸ walks types t name).fails (ht.own hn) .refl (by simp) rfl⟩
      · rename_i d hf
        obtain ⟨g, hg, hfails⟩ := ih (ht.bind hn hf) h
        exact ⟨g, List.mem_cons_of_mem _ hg, hfails⟩
    · obtain ⟨g, hg, hfails⟩ := ih ht h
      exact ⟨g, List.mem_cons_of_mem _ hg, hfails⟩

theorem aliases_append {before rest : Declarations} {t : Table} :
    aliases types (before ++ rest) t = aliases types before t >>= aliases types rest := by
  induction before generalizing t with
  | nil => rfl
  | cons f before ih =>
    obtain ⟨name, body⟩ := f
    rw [List.cons_append, aliases, aliases]
    split_ifs
    · cases t.follow types types.length types name with
      | error e => rfl
      | ok d => exact ih
    · exact ih

/-- Whether an error tells what a body cannot be read for, where the names of a table are bound. -/
def Misread (t : Table) : ReferenceError → Prop
  | .unknownType n => t.lookup n = none ∧ Keyword.ofName? n = none
  | .aliasCycle _ => False
  | .invalidBigInt text => BigInt.parse? text = none

theorem Misread.of_names {u : Table} (hn : u.names = t.names) {e : ReferenceError}
    (h : u.Misread e) : t.Misread e := by
  cases e with
  | unknownType n => exact ⟨by rw [lookup, ← hn]; exact h.1, h.2⟩
  | aliasCycle n => exact h
  | invalidBigInt text => exact h

theorem settle_error {r : Result Lowered} {e : ReferenceError} (h : (settle r).1 = .error e) :
    r.1 = .error e := by
  unfold settle at h
  split at h <;> cases h
  rfl

theorem shaped_error {α : Type} {f : α → Shape} {r : Result α} {e : ReferenceError}
    (h : (shaped f r).1 = .error e) : r.1 = .error e := by
  unfold shaped at h
  split at h <;> cases h
  rfl

mutual

theorem lower_misread {t : Table} {e : TypeExpr} {err : ReferenceError}
    (h : (t.lower e).1 = .error err) : t.Misread err := by
  cases e with
  | name n =>
    rw [lower] at h
    split at h <;> cases h
    exact ⟨‹_›, ‹_›⟩
  | literal value =>
    rw [lower] at h
    cases h
  | bigint text =>
    rw [lower] at h
    split at h <;> cases h
    assumption
  | array element =>
    rw [lower] at h
    exact lower_misread (e := element) (settle_error (shaped_error h))
  | union members =>
    rw [lower] at h
    exact internAll_misread (shaped_error h)
  | record fields =>
    rw [lower] at h
    exact internFields_misread (shaped_error h)

theorem internAll_misread {t : Table} {es : List TypeExpr} {err : ReferenceError}
    (h : (t.internAll es).1 = .error err) : t.Misread err := by
  cases es with
  | nil =>
    rw [internAll] at h
    cases h
  | cons e es =>
    rw [internAll] at h
    split at h
    · rename_i err' u hd
      cases h
      exact lower_misread (e := e) (settle_error (by rw [hd]))
    · rename_i d u hd
      split at h <;> cases h
      rename_i hds
      have hrest : (u.internAll es).1 = .error err := by rw [hds]
      exact (internAll_misread hrest).of_names (Document.names_of_intern hd)

theorem internFields_misread {t : Table} {fs : List (String × TypeExpr)} {err : ReferenceError}
    (h : (t.internFields fs).1 = .error err) : t.Misread err := by
  cases fs with
  | nil =>
    rw [internFields] at h
    cases h
  | cons f fs =>
    obtain ⟨name, e⟩ := f
    rw [internFields] at h
    split at h
    · rename_i err' u hd
      cases h
      exact lower_misread (e := e) (settle_error (by rw [hd]))
    · rename_i d u hd
      split at h <;> cases h
      rename_i hds
      have hrest : (u.internFields fs).1 = .error err := by rw [hds]
      exact (internFields_misread hrest).of_names (Document.names_of_intern hd)

end

theorem body_misread {e : TypeExpr} (ha : e.isAlias = false) {err : ReferenceError}
    (h : (t.body e).1 = .error err) : t.Misread err := by
  unfold body at h
  split at h
  · rename_i n
    split at h
    · cases h
    · rename_i hk
      simp [TypeExpr.isAlias, hk] at ha
  · split at h <;> cases h
    rename_i hl
    exact lower_misread (by rw [hl])

theorem fill_misread {rest : Declarations} {t : Table} {err : ReferenceError}
    (h : fill rest t = .error err) : t.Misread err := by
  induction rest generalizing t with
  | nil => cases h
  | cons f rest ih =>
    obtain ⟨name, e⟩ := f
    rcases fill_cons_eq_error.1 h with ⟨-, h⟩ | ⟨ha, hb | ⟨s, u, hb, h⟩⟩
    · exact ih h
    · exact body_misread ha hb
    · exact (ih h).of_names ((names_fillSlot ..).trans (names_of_body hb))

/-! ### Declarations -/

theorem lookup_alias {a b : String} (hn : (Fields.names types).Nodup)
    (h : ofDeclarations types = .ok t) (ha : (a, .name b) ∈ types)
    (hb : Keyword.ofName? b = none) : ∃ d, t.lookup a = some d ∧ t.lookup b = some d := by
  have hd := ofDeclarations_declares hn h
  have hget := (Fields.get?_eq_some_iff hn).2 ha
  obtain ⟨d, hl⟩ := Option.isSome_iff_exists.1 (hd.declared (n := a) (by rw [hget]; rfl))
  refine ⟨d, hl, ?_⟩
  cases hd.denotes hl with
  | own he hea =>
    obtain rfl := Option.some.inj (hget.symm.trans he)
    simp [TypeExpr.isAlias, hb] at hea
  | through hm _ hlm =>
    obtain rfl := TypeExpr.name.inj (Option.some.inj (hget.symm.trans hm))
    exact hlm

/-- Names have one entry exactly if they refer to one declaration. -/
theorem lookup_eq_iff (hn : (Fields.names types).Nodup) (h : ofDeclarations types = .ok t)
    (hm : Refers types n m) : t.lookup k = t.lookup n ↔ Refers types k m := by
  obtain ⟨target, K, _, hk, htarget, -, -⟩ := ofDeclarations_keyed hn h
  have hkey : (t.lookup n).map K = some (.declared m) := by
    rw [hk.targets, (htarget n m).2 hm, Option.map_some]
  rw [← htarget]
  constructor
  · intro hl
    have := hk.targets k
    rw [hl, hkey] at this
    obtain ⟨m', hm', hmm⟩ := Option.map_eq_some_iff.1 this.symm
    rw [hm', TypeKey.declared.inj hmm]
  · intro hl
    have hkey' := hk.targets k
    rw [hl, Option.map_some] at hkey'
    obtain ⟨d, hd, hdm⟩ := Option.map_eq_some_iff.1 hkey
    obtain ⟨d', hd', hdm'⟩ := Option.map_eq_some_iff.1 hkey'
    rw [hd, hd', hk.injective (hk.tidy.names hd') (hk.tidy.names hd) (hdm'.trans hdm.symm)]

theorem cycle_of_error (hn : (Fields.names types).Nodup)
    (h : ofDeclarations types = .error (.aliasCycle n)) :
    Relation.TransGen (AliasOf types) n n := by
  rw [ofDeclarations] at h
  rcases bind_eq_error.1 h with ha | ⟨u, -, hfill⟩
  · obtain ⟨f, -, hfails⟩ := aliases_error hn (slots_aliased types) ha
    cases hfails with
    | cycle _ hcycle => exact hcycle
  · exact (fill_misread hfill).elim

theorem unknown_of_chain {before after : Declarations} {a : String} {e : TypeExpr}
    (hn : (Fields.names types).Nodup) (htypes : types = before ++ (a, e) :: after)
    (hbefore : ∀ f ∈ before, f.2.isAlias → ∃ m, Refers types f.1 m)
    (hchain : Relation.TransGen (AliasOf types) a n) (hend : Fields.get? n types = none) :
    ofDeclarations types = .error (.unknownType n) := by
  obtain ⟨m, hstep, -⟩ := Relation.TransGen.head'_iff.1 hchain
  have hget : Fields.get? a types = some e :=
    (Fields.get?_eq_some_iff hn).2 (by rw [htypes]; simp)
  obtain rfl := Option.some.inj (hget.symm.trans hstep.1)
  have ha : (TypeExpr.name m).isAlias := TypeExpr.isAlias_iff.2 ⟨m, rfl, hstep.2⟩
  obtain ⟨u, hu⟩ := (exists_aliases hn (slots_aliased types)).2 hbefore
  have hal : Aliased types u :=
    (aliases_aliased hn (by rw [htypes]; simp +contextual) (slots_aliased types) hu).1
  have hfollow := hal.follow_unknown hn hchain.to_reflTransGen hend
  have haliases : aliases types types (slots types) = .error (.unknownType n) := by
    conv_lhs => arg 2; rw [htypes]
    rw [aliases_append, hu]
    change aliases types ((a, .name m) :: after) u = _
    rw [aliases, if_pos ha, hfollow]
  rw [ofDeclarations, haliases]
  rfl

/-- Aliases are resolved through chains of any length, in whatever order they are declared. -/
theorem aliases_resolved (types : Declarations) (hn : (Fields.names types).Nodup) :
    (∃ r, Binds types types (slots types) r ∧ ofDeclarations types = r >>= fill types) ∧
    (∀ t, ofDeclarations types = .ok t →
      (∀ a b, (a, .name b) ∈ types → Keyword.ofName? b = none →
        ∃ d, t.lookup a = some d ∧ t.lookup b = some d) ∧
      (∀ f ∈ types, ∀ g ∈ types, f.2.isAlias = false → g.2.isAlias = false → f.1 ≠ g.1 →
        ∃ d d', t.lookup f.1 = some d ∧ t.lookup g.1 = some d' ∧ d ≠ d') ∧
      ∀ f ∈ types, f.2.isAlias → ∃ m, Refers types f.1 m) ∧
    (∀ n, ofDeclarations types = .error (.aliasCycle n) →
      Relation.TransGen (AliasOf types) n n) ∧
    ∀ before a body after n, types = before ++ (a, body) :: after →
      (∀ f ∈ before, f.2.isAlias → ∃ m, Refers types f.1 m) →
      Relation.TransGen (AliasOf types) a n → Fields.get? n types = none →
      ofDeclarations types = .error (.unknownType n) := by
  refine ⟨⟨_, binds types types (slots types), rfl⟩, fun t h => ⟨?_, ?_, ?_⟩,
    fun n => cycle_of_error hn, fun before a e after n => unknown_of_chain hn⟩
  · intro a b
    exact lookup_alias hn h
  · intro f hf g hg hfa hga hne
    have hget : ∀ c ∈ types, Fields.get? c.1 types = some c.2 :=
      fun c hc => (Fields.get?_eq_some_iff hn).2 hc
    have hown : ∀ c ∈ types, (t.lookup c.1).isSome :=
      fun c hc => (ofDeclarations_declares hn h).declared (by rw [hget c hc]; rfl)
    obtain ⟨d, hd⟩ := Option.isSome_iff_exists.1 (hown f hf)
    obtain ⟨d', hd'⟩ := Option.isSome_iff_exists.1 (hown g hg)
    refine ⟨d, d', hd, hd', ?_⟩
    rintro rfl
    have hfg : Refers types f.1 g.1 :=
      (lookup_eq_iff hn h (.own (hget g hg) hga)).1 (hd.trans hd'.symm)
    exact hne (Refers.unique (.own (hget f hf) hfa) hfg)
  · intro f hf hfa
    have hwf := (exists_ofDeclarations hn).1 ⟨t, h⟩ f hf
    rwa [WellFormed, if_pos hfa] at hwf

/-- Aliases of one record, declared before and after it. -/
def ladder : Declarations :=
  [("D", .name "C"), ("Own", .name "number"), ("A", .record []), ("C", .name "B"),
    ("B", .name "A")]

/-- A chain that runs into a cycle that it is not part of. -/
def lasso : Declarations :=
  [("In", .name "F"), ("F", .name "G"), ("G", .name "F")]

/-- A chain that ends at no declaration, behind one that does. -/
def loose : Declarations :=
  [("Good", .name "Own"), ("X", .name "Y"), ("Own", .name "string"), ("Y", .name "Z")]

/-- All names of the ladder have one entry, the lasso is reported where it closes, and the loose
chain at its end. -/
theorem aliases_resolved_ladder : (Fields.names ladder).Nodup ∧ (Fields.names lasso).Nodup ∧
    (Fields.names loose).Nodup ∧
    (∃ t d d', ofDeclarations ladder = .ok t ∧ t.lookup "D" = some d ∧ t.lookup "C" = some d ∧
      t.lookup "B" = some d ∧ t.lookup "A" = some d ∧ t.lookup "Own" = some d' ∧ d ≠ d') ∧
    ofDeclarations lasso = .error (.aliasCycle "F") ∧
    Relation.TransGen (AliasOf lasso) "F" "F" ∧
    ofDeclarations loose = .error (.unknownType "Z") := by
  have hladder : (Fields.names ladder).Nodup := by decide
  have hlasso : (Fields.names lasso).Nodup := by decide
  have hloose : (Fields.names loose).Nodup := by decide
  refine ⟨hladder, hlasso, hloose, ?_, ?_⟩
  · obtain ⟨t, ht⟩ : ∃ t, ofDeclarations ladder = .ok t := exists_of_isOk (by decide +kernel)
    obtain ⟨halias, hown, -⟩ := (aliases_resolved ladder hladder).2.1 t ht
    obtain ⟨d, hd, hc⟩ := halias "D" "C" (by simp [ladder]) (by decide)
    obtain ⟨d₁, hc₁, hb⟩ := halias "C" "B" (by simp [ladder]) (by decide)
    obtain ⟨d₂, hb₂, ha⟩ := halias "B" "A" (by simp [ladder]) (by decide)
    obtain ⟨d₃, d', ha₃, hd', hne⟩ := hown ("A", .record []) (by simp [ladder])
      ("Own", .name "number") (by simp [ladder]) (by decide) (by decide) (by decide)
    obtain rfl := Option.some.inj (hc.symm.trans hc₁)
    obtain rfl := Option.some.inj (hb.symm.trans hb₂)
    obtain rfl := Option.some.inj (ha.symm.trans ha₃)
    exact ⟨t, d, d', ht, hd, hc, hb, ha, hd', hne⟩
  · have hcycle : ofDeclarations lasso = .error (.aliasCycle "F") :=
      eq_error_of_match (by decide +kernel)
    refine ⟨hcycle, (aliases_resolved lasso hlasso).2.2.1 "F" hcycle, ?_⟩
    refine (aliases_resolved loose hloose).2.2.2 [("Good", .name "Own")] "X" (.name "Y")
      [("Own", .name "string"), ("Y", .name "Z")] "Z" rfl ?_ ?_ (by decide)
    · rintro f hf -
      obtain rfl := List.mem_singleton.1 hf
      exact ⟨"Own", .through rfl (by decide) (.own rfl (by decide))⟩
    · exact .tail (.single ⟨rfl, by decide⟩) ⟨rfl, by decide⟩

end Conform.Table
