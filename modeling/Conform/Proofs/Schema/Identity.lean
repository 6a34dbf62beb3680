import Conform.Proofs.Schema.Calls

/-! Interned types have one entry exactly if they are equal: if their expressions say the same once
declared names stand for their entries and literals for their values. Inline records are equal to
nothing that was interned before. -/

namespace Conform

/-- What an expression says, with entries in place of declared names. -/
inductive TypeTerm where
  | entry (d : TypeId)
  | undeclared (name : String)
  | literal (value : Literal)
  | malformed (bigint : String)
  | array (element : TypeTerm)
  | union (members : List TypeTerm)
  | record (fields : List (String × TypeTerm))

namespace TypeExpr

section

variable (lookup : String → Option TypeId)

mutual

/-- An expression with entries in place of declared names, numbers in place of the texts of big
integers, and one zero in place of both. -/
def term : TypeExpr → TypeTerm
  | .name n => match lookup n with
    | some d => .entry d
    | none => .undeclared n
  | .literal value => .literal value.normal
  | .bigint text => match BigInt.parse? text with
    | some i => .literal (.bigint i)
    | none => .malformed text
  | .array element => .array element.term
  | .union members => .union (terms members)
  | .record fields => .record (fieldTerms fields)

def terms : List TypeExpr → List TypeTerm
  | [] => []
  | e :: es => e.term :: terms es

def fieldTerms : List (String × TypeExpr) → List (String × TypeTerm)
  | [] => []
  | (field, e) :: fs => (field, e.term) :: fieldTerms fs

end

end

theorem records_of_mem {es : List TypeExpr} (h : allRecords es = 0) : ∀ e ∈ es, e.records = 0 := by
  induction es with
  | nil => simp
  | cons e es ih =>
    rw [allRecords, Nat.add_eq_zero_iff] at h
    exact List.forall_mem_cons.2 ⟨h.1, ih h.2⟩

theorem records_of_mem_parts {e p : TypeExpr} (he : e.records = 0) (hp : p ∈ e.parts) :
    p.records = 0 := by
  cases e with
  | array element =>
    rw [List.mem_singleton.1 hp]
    simpa [records] using he
  | union members =>
    have hall : allRecords members = 0 := by simpa [records] using he
    exact records_of_mem hall p hp
  | record fields => simp [records] at he
  | _ => exact absurd hp List.not_mem_nil

end TypeExpr

namespace Keyword

theorem eq_text {n : String} {k : Keyword} (h : ofName? n = some k) : n = k.text := by
  have htext : (k.text == n) = true := List.find?_some (p := fun k : Keyword => k.text == n) h
  exact (beq_iff_eq.1 htext).symm

theorem text_inj {a b : Keyword} (h : a.text = b.text) : a = b := by
  have ha := ofName?_text a
  rw [h, ofName?_text] at ha
  exact (Option.some.inj ha).symm

end Keyword

/-- Whether a shape that is no record has a term, where the entries that it refers to have terms. -/
inductive Shape.HasTerm (R : TypeId → TypeTerm → Prop) : Shape → TypeTerm → Prop
  | keyword (k : Keyword) : HasTerm R (.keyword k) (.undeclared k.text)
  | literal (value : Literal) : HasTerm R (.literal value) (.literal value.normal)
  | array {d : TypeId} {r : TypeTerm} (h : R d r) : HasTerm R (.array d) (.array r)
  | union {ds : List TypeId} {rs : List TypeTerm} (h : List.Forall₂ R ds rs) :
      HasTerm R (.union ds) (.union rs)

namespace Shape.HasTerm

variable {R R' : TypeId → TypeTerm → Prop} {s s' : Shape} {r r' : TypeTerm}

theorem same_self (h : s.HasTerm R r) : s.same s := by
  cases h <;> simp [same, Literal.same_iff]

theorem ne_entry (h : s.HasTerm R r) (d : TypeId) : r ≠ .entry d := by
  rintro rfl
  cases h

theorem forall₂_eq_iff {ds ds' : List TypeId} {rs rs' : List TypeTerm}
    (h : List.Forall₂ R ds rs) (h' : List.Forall₂ R' ds' rs')
    (hR : ∀ d r d' r', R d r → R' d' r' → (d = d' ↔ r = r')) : ds = ds' ↔ rs = rs' := by
  induction h generalizing ds' rs' with
  | nil => cases h' <;> simp
  | cons hd _ ih =>
    cases h' with
    | nil => simp
    | cons hd' hds' => rw [List.cons_eq_cons, List.cons_eq_cons, hR _ _ _ _ hd hd', ih hds']

/-- Shapes are the same exactly if their terms are, where that is so for entries. -/
theorem same_iff (h : s.HasTerm R r) (h' : s'.HasTerm R' r')
    (hR : ∀ d r d' r', R d r → R' d' r' → (d = d' ↔ r = r')) : s.same s' ↔ r = r' := by
  cases h with
  | keyword k =>
    cases h' with
    | keyword k' =>
      simp only [same, beq_iff_eq, TypeTerm.undeclared.injEq]
      exact ⟨fun hk => by rw [hk], Keyword.text_inj⟩
    | _ => simp [same]
  | literal value => cases h' <;> simp [same, Literal.same_iff]
  | array hd =>
    cases h' with
    | array hd' => simpa [same] using hR _ _ _ _ hd hd'
    | _ => simp [same]
  | union hds =>
    cases h' with
    | union hds' => simpa [same] using forall₂_eq_iff hds hds' hR
    | _ => simp [same]

end Shape.HasTerm

namespace Table

variable {t : Table} {e f : TypeExpr} {d d' : TypeId} {s : Shape}

def TermIn (t : Table) (P : TypeExpr → Prop) (d : TypeId) (r : TypeTerm) : Prop :=
  ∃ e : TypeExpr, P e ∧ e.records = 0 ∧ t.Spells e d ∧ e.term t.lookup = r

theorem termIn_all {P : TypeExpr → Prop} {es : List TypeExpr} {ds : List TypeId}
    (hP : ∀ e ∈ es, P e ∧ e.records = 0) (h : List.Forall₂ t.Spells es ds) :
    List.Forall₂ (t.TermIn P) ds (TypeExpr.terms t.lookup es) := by
  induction h with
  | nil => exact .nil
  | cons he _ ih =>
    obtain ⟨hP, hes⟩ := List.forall_mem_cons.1 hP
    exact .cons ⟨_, hP.1, hP.2, he, rfl⟩ (ih hes)

theorem Lowers.hasTerm {P : TypeExpr → Prop} (h : t.Lowers e s) (hr : e.records = 0)
    (hP : ∀ p ∈ e.parts, P p) : s.HasTerm (t.TermIn P) (e.term t.lookup) := by
  have hparts : ∀ p ∈ e.parts, P p ∧ p.records = 0 :=
    fun p hp => ⟨hP p hp, TypeExpr.records_of_mem_parts hr hp⟩
  cases e with
  | name n =>
    obtain ⟨hn, k, hk, rfl⟩ := h
    rw [TypeExpr.term, hn, Keyword.eq_text hk]
    exact .keyword k
  | literal value =>
    obtain ⟨l, rfl, hl⟩ := h
    rw [TypeExpr.term, ← Literal.same_iff.1 hl]
    exact .literal l
  | bigint text =>
    obtain ⟨i, hi, rfl⟩ := h
    rw [TypeExpr.term, hi]
    exact .literal (.bigint i)
  | array element =>
    obtain ⟨c, rfl, hc⟩ := h
    obtain ⟨hP, hr⟩ := hparts element (List.mem_singleton_self _)
    exact .array ⟨element, hP, hr, hc, rfl⟩
  | union members =>
    obtain ⟨cs, rfl, hcs⟩ := h
    exact .union (termIn_all hparts (lowersAll_iff.1 hcs))
  | record fields => simp [TypeExpr.records] at hr

/-- Expressions without records have one entry exactly if they have one term. -/
theorem Spells.eq_iff (ht : t.Tidy) (he : e.records = 0) (hf : f.records = 0) (h : t.Spells e d)
    (h' : t.Spells f d') : d = d' ↔ e.term t.lookup = f.term t.lookup := by
  induction e using TypeExpr.partsInduction generalizing f d d' with
  | parts e ih =>
    rcases h with ⟨n, rfl, hn⟩ | ⟨s, hs, hl⟩ <;> rcases h' with ⟨m, rfl, hm⟩ | ⟨s', hs', hl'⟩
    · simp [TypeExpr.term, hn, hm]
    · have hterm := hl'.hasTerm (P := fun _ => True) hf fun _ _ => trivial
      rw [TypeExpr.term, hn]
      refine iff_of_false ?_ (hterm.ne_entry d).symm
      rintro rfl
      exact ht.named hn hs'
    · have hterm := hl.hasTerm (P := fun _ => True) he fun _ _ => trivial
      rw [TypeExpr.term, hm]
      refine iff_of_false ?_ (hterm.ne_entry d')
      rintro rfl
      exact ht.named hm hs
    · have hterm := hl.hasTerm (P := fun p => p ∈ e.parts) he fun _ hp => hp
      have hterm' := hl'.hasTerm (P := fun _ => True) hf fun _ _ => trivial
      rw [← hterm.same_iff hterm' fun c r c' r' hc hc' => ?_]
      · refine ⟨fun hd => ?_, ht.unique hs hs'⟩
        subst hd
        obtain rfl : s = s' := by simpa using Option.some.inj (hs.symm.trans hs')
        exact hterm.same_self
      · obtain ⟨p, hp, hpr, hpc, rfl⟩ := hc
        obtain ⟨q, -, hqr, hqc, rfl⟩ := hc'
        exact ih p hp hpr hqr hpc hqc

/-! ### Tables of declarations -/

theorem Aliased.named {types : Declarations} (h : Aliased types t)
    (hn : (Fields.names types).Nodup) : t.Named := by
  intro n d hl
  obtain ⟨m, hm, -⟩ := (h.leads hl).entry hn
  exact ⟨m, .pending, h.entries ▸ hm⟩

theorem Aliased.sound {types : Declarations} (h : Aliased types t) : t.Sound := by
  refine ⟨h.tidy, fun {d s} hd => ?_⟩
  rw [HasInline, h.entries] at hd
  obtain ⟨n, hn⟩ := (slots_slotted types).1.entry hd
  cases hn

theorem declarationCalls_made {types : Declarations} (hn : (Fields.names types).Nodup)
    (h : ofDeclarations types = .ok t) :
    ∃ u, Made u (declarationCalls types) t ∧ u.Tidy := by
  rw [ofDeclarations, bind_eq_ok] at h
  obtain ⟨u, ha, hf⟩ := h
  obtain ⟨hal, -, -⟩ := aliases_aliased hn (fun _ h => h) (slots_aliased types) ha
  refine ⟨u, ?_, hal.tidy⟩
  rw [declarationCalls, ha]
  exact fillCalls_made hal.sound (hal.named hn) hf

/-- Interning tells types apart exactly as far as they are equal. Of all calls for entries, those
for parts of declared bodies and of expressions included, and whatever fails on the way, two for
expressions without records gave one entry exactly if the expressions have one term; a call for an
expression with a record gave an entry that no call gave before, and that of no declared name; and
an entry that was given stays as it is. -/
theorem interned_eq_iff {types : Declarations} (hn : (Fields.names types).Nodup)
    (h : ofDeclarations types = .ok t) (es : List TypeExpr) :
    (∀ p ∈ declarationCalls types ++ t.eachCalls es,
        ∀ q ∈ declarationCalls types ++ t.eachCalls es, p.1.records = 0 → q.1.records = 0 →
          (p.2 = q.2 ↔ p.1.term t.lookup = q.1.term t.lookup)) ∧
      (declarationCalls types ++ t.eachCalls es).Pairwise
        (fun p q => 0 < q.1.records → p.2 ≠ q.2) ∧
      (∀ p ∈ declarationCalls types ++ t.eachCalls es, 0 < p.1.records →
        ∀ n, t.lookup n ≠ some p.2) ∧
      (∀ (u : Table) (e : TypeExpr), u.Extends (u.intern e).2) ∧
      ∀ done rest, es = done ++ rest → ∀ p ∈ declarationCalls types ++ t.eachCalls done,
        ∃ entry, (t.internEach done).entries[p.2]? = some entry ∧
          (t.internEach es).entries[p.2]? = some entry := by
  obtain ⟨u, hdecl, hu⟩ := declarationCalls_made hn h
  have hmade := hdecl.append (eachCalls_made hdecl.sound es)
  have hlook : (t.internEach es).lookup = t.lookup :=
    funext (extends_internEach t es).keeps.lookup
  refine ⟨fun p hp q hq hpr hqr => ?_, hmade.fresh, fun p hp hr n hl => ?_, extends_intern,
    fun done rest hes p hp => ?_⟩
  · rw [← hlook]
    exact (hmade.spells p hp).eq_iff hmade.sound.tidy hpr hqr (hmade.spells q hq)
  · rw [hdecl.keeps.lookup] at hl
    exact absurd (hmade.new p hp hr) (Nat.not_le_of_lt (hu.names hl))
  · have hdone := hdecl.append (eachCalls_made hdecl.sound done)
    have hlt := (hdone.spells p hp).lt hdone.sound.tidy
    have hx : (t.internEach done).Extends (t.internEach es) := by
      rw [hes, internEach_append]
      exact extends_internEach _ rest
    exact ⟨_, Array.getElem?_eq_getElem hlt, (hx.entry _ hlt).trans (Array.getElem?_eq_getElem hlt)⟩

def shelves : Declarations :=
  [("Shelf", .array (.name "Book")), ("Book", .record [("title", .name "string")]),
    ("Volume", .name "Book")]

/-- An array of books is interned, then that of volumes and a record, after a request that fails. -/
theorem interned_eq_iff_shelves : (Fields.names shelves).Nodup ∧
    ∃ t, ofDeclarations shelves = .ok t ∧
      (TypeExpr.array (.name "Book")).term t.lookup =
        (TypeExpr.array (.name "Volume")).term t.lookup ∧
      t.lookup "Volume" ≠ some 4 := by
  have hok : ∀ {r : Except ReferenceError TypeId} {d : TypeId}, r.toOption = some d → r = .ok d := by
    rintro (err | d) d' h <;> simp_all [Except.toOption]
  obtain ⟨t, ht⟩ : ∃ t, ofDeclarations shelves = .ok t := exists_of_isOk (by decide +kernel)
  have hids : ((ofDeclarations shelves).toOption.map fun t =>
      ((t.intern (.array (.name "Book"))).1.toOption,
        ((t.internEach [.array (.name "Book"), .bigint "one"]).intern
          (.array (.name "Volume"))).1.toOption,
        ((t.internEach [.array (.name "Book"), .bigint "one", .array (.name "Volume")]).intern
          (.record [])).1.toOption)) = some (some 3, some 3, some 4) := by decide +kernel
  rw [ht] at hids
  obtain ⟨hbook, hrest⟩ := Prod.mk.inj (Option.some.inj hids)
  obtain ⟨hvolume, hrecord⟩ := Prod.mk.inj hrest
  obtain ⟨hsame, -, hnew, -⟩ := interned_eq_iff (by decide) ht
    [.array (.name "Book"), .bigint "one", .array (.name "Volume"), .record []]
  refine ⟨by decide, t, ht, ?_, ?_⟩
  · have hmem := mem_eachCalls [] [.bigint "one", .array (.name "Volume"), .record []] (hok hbook)
    have hmem' := mem_eachCalls _ [.record []] (hok hvolume)
    exact (hsame _ (List.mem_append_right _ hmem) _ (List.mem_append_right _ hmem') (by decide)
      (by decide)).1 rfl
  · have hmem := mem_eachCalls _ [] (hok hrecord)
    exact hnew _ (List.mem_append_right _ hmem) (by decide) "Volume"

end Table

end Conform
