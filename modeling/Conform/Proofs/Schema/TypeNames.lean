import Mathlib.Data.List.Forall2
import Conform.Proofs.Schema.Identity

/-! Names of types. An entry may lead back to itself, but never along inline entries alone, since
those refer to earlier ones. So every name is put together in finitely many steps, and no entry is
left whose body was not read. -/

namespace Conform

namespace Table

variable {t : Table} {d : TypeId} {n : String} {s : Shape} {types : Declarations}

/-- Whether a text is the name of an inline shape, put together from names of the entries that it
refers to. Nothing is the name of a slot whose body was not read. -/
inductive ShapeName (t : Table) (R : TypeId → String → Prop) : Shape → String → Prop
  | keyword (k : Keyword) : ShapeName t R (.keyword k) k.text
  | string (s : String) : ShapeName t R (.literal (.string s)) (Text.escaped s)
  | literal {l : Literal} (h : ∀ s, l ≠ .string s) : ShapeName t R (.literal l) l.sourceForm
  | array {c : TypeId} {n : String} (hc : t.isInlineUnion c = false) (h : R c n) :
      ShapeName t R (.array c) (n ++ "[]")
  | arrayOfUnion {c : TypeId} {n : String} (hc : t.isInlineUnion c) (h : R c n) :
      ShapeName t R (.array c) ("(" ++ n ++ ")[]")
  | union {cs : List TypeId} {ns : List String} (h : List.Forall₂ R cs ns) :
      ShapeName t R (.union cs) (" | ".intercalate ns)
  | record {fs : List (String × TypeId)} {ns : List String}
      (h : List.Forall₂ R (fs.map (·.2)) ns) :
      ShapeName t R (.record fs) (recordName ((fs.map (·.1)).zip ns))

/-- Whether a text is the name of an entry, which is so only if it takes finitely many steps to put
it together. -/
inductive NameIs (t : Table) : TypeId → String → Prop
  | declared {d : TypeId} {n : String} {s : Shape} (h : t.entries[d]? = some ⟨some n, s⟩) :
      NameIs t d n
  | inline {d : TypeId} {n : String} {s : Shape} (h : t.HasInline d s)
      (hn : ShapeName t (NameIs t) s n) : NameIs t d n

/-! ### No slot is left -/

def Complete (t : Table) : Prop :=
  ∀ (d : TypeId) (e : Entry), t.entries[d]? = some e → e.shape ≠ .pending

theorem preserved_complete : Preserved Complete := by
  intro t s hs h
  rcases t.inline_cases s with ⟨_, _, _, _, hi⟩ | ⟨-, hi⟩
  · rw [hi]
    exact h
  · rw [hi]
    intro d e he
    rw [entry_alloc] at he
    split_ifs at he
    · cases he
      exact hs
    · exact h d e he

theorem not_keyed_pending {K : TypeId → TypeKey} {κ : TypeKey} : ¬ Shape.pending.Keyed K κ := by
  rintro ⟨⟩

theorem ofDeclarations_complete (hn : (Fields.names types).Nodup)
    (h : ofDeclarations types = .ok t) : t.Complete := by
  obtain ⟨target, K, f, hk, htarget, -, hbodied⟩ := ofDeclarations_keyed hn h
  rintro d ⟨name, s⟩ he rfl
  cases name with
  | none => exact not_keyed_pending (hk.inline he)
  | some n =>
    obtain ⟨hkey, hown⟩ := hk.named he
    obtain ⟨e, hget, ha⟩ := ((htarget n n).1 hown).declared
    -- the name of an entry leads to the entry
    have hlook := hk.targets n
    rw [hown, Option.map_some] at hlook
    obtain ⟨d', hd', hkey'⟩ := Option.map_eq_some_iff.1 hlook
    obtain rfl := hk.injective (hk.tidy.names hd') (lt_of_entry he) (hkey'.trans hkey.symm)
    have hbody := hbodied (n, e) ((Fields.get?_eq_some_iff hn).1 hget) ha d' hd'
    rw [shape_eq he] at hbody
    exact not_keyed_pending hbody

/-! ### Names -/

theorem forall₂_iff_eq_map {α β : Type} {R : α → β → Prop} {f : α → β} {as : List α} {bs : List β}
    (h : ∀ a ∈ as, ∀ b, R a b ↔ b = f a) : List.Forall₂ R as bs ↔ bs = as.map f := by
  induction as generalizing bs with
  | nil => simp
  | cons a as ih =>
    obtain ⟨ha, has⟩ := List.forall_mem_cons.1 h
    simp only [List.forall₂_cons_left_iff, ha, ih has, List.map_cons]
    constructor
    · rintro ⟨_, _, rfl, rfl, rfl⟩
      rfl
    · rintro rfl
      exact ⟨_, _, rfl, rfl, rfl⟩

theorem nameIs_declared {m : String} (hd : t.entries[d]? = some ⟨some m, s⟩) :
    t.NameIs d n ↔ n = m := by
  constructor
  · intro h
    cases h with
    | declared h =>
      rw [hd] at h
      cases h
      rfl
    | inline h =>
      rw [HasInline, hd] at h
      cases h
  · rintro rfl
    exact .declared hd

theorem nameIs_inline (hd : t.HasInline d s) :
    t.NameIs d n ↔ t.ShapeName t.NameIs s n := by
  constructor
  · intro h
    cases h with
    | declared h =>
      rw [hd] at h
      cases h
    | inline h hn =>
      rw [HasInline, hd] at h
      cases h
      exact hn
  · exact .inline hd

def shapeNameOf (t : Table) (f : TypeId → String) : Shape → String
  | .keyword k => k.text
  | .literal (.string s) => Text.escaped s
  | .literal value => value.sourceForm
  | .array c => if t.isInlineUnion c then "(" ++ f c ++ ")[]" else f c ++ "[]"
  | .union cs => " | ".intercalate (cs.map f)
  | .record fs => recordName (fs.map fun (k, d) => (k, f d))
  | .pending => pendingName

theorem nameBelow_inline (hd : t.HasInline d s) (bound : Nat) :
    t.nameBelow (bound + 1) d = t.shapeNameOf (t.nameBelow bound) s := by
  rw [nameBelow, show t.entries[d]? = _ from hd]
  cases s with
  | literal l => cases l <;> rfl
  | _ => rfl

theorem zip_names (fs : List (String × TypeId)) (f : TypeId → String) :
    (fs.map (·.1)).zip ((fs.map (·.2)).map f) = fs.map fun (k, d) => (k, f d) := by
  rw [List.map_map, List.zip_map']
  rfl

/-- A shape that is no slot has one name, if each entry that it refers to has one. -/
theorem shapeName_iff {R : TypeId → String → Prop} {f : TypeId → String} (hs : s ≠ .pending)
    (hR : ∀ c ∈ s.children, ∀ m, R c m ↔ m = f c) :
    t.ShapeName R s n ↔ n = t.shapeNameOf f s := by
  constructor
  · intro h
    cases h with
    | keyword k => rfl
    | string s => rfl
    | @literal l hl =>
      cases l with
      | string s => exact absurd rfl (hl s)
      | _ => rfl
    | @array c m hc h =>
      obtain rfl := (hR c (List.mem_singleton_self c) m).1 h
      simp [shapeNameOf, hc]
    | @arrayOfUnion c m hc h =>
      obtain rfl := (hR c (List.mem_singleton_self c) m).1 h
      simp [shapeNameOf, hc]
    | union h =>
      obtain rfl := (forall₂_iff_eq_map hR).1 h
      rfl
    | record h =>
      obtain rfl := (forall₂_iff_eq_map hR).1 h
      exact congrArg recordName (zip_names _ f)
  · rintro rfl
    cases s with
    | keyword k => exact .keyword k
    | literal l =>
      cases l with
      | string s => exact .string s
      | _ => exact .literal (by simp)
    | array c =>
      have hself := (hR c (List.mem_singleton_self c) _).2 rfl
      rw [shapeNameOf]
      split_ifs with hc
      · exact .arrayOfUnion hc hself
      · exact .array (Bool.eq_false_iff.2 hc) hself
    | union cs => exact .union ((forall₂_iff_eq_map hR).2 rfl)
    | record fs =>
      rw [shapeNameOf, ← zip_names]
      exact .record ((forall₂_iff_eq_map hR).2 rfl)
    | pending => exact absurd rfl hs

/-- Any bound that an entry is below is enough for its name. -/
theorem nameIs_iff (h : t.Sound) (hc : t.Complete) {bound : Nat} (hb : d < bound)
    (hd : d < t.entries.size) : t.NameIs d n ↔ n = t.nameBelow bound d := by
  induction bound generalizing d n with
  | zero => exact absurd hb (Nat.not_lt_zero d)
  | succ bound ih =>
    obtain ⟨⟨name, s⟩, he⟩ : ∃ e, t.entries[d]? = some e := ⟨_, Array.getElem?_eq_getElem hd⟩
    cases name with
    | some m => rw [nameIs_declared he, nameBelow, he]
    | none =>
      -- what an inline entry refers to comes before it
      have hparts : ∀ c ∈ s.children, ∀ m, t.NameIs c m ↔ m = t.nameBelow bound c :=
        fun c hcs m =>
          have hlt := h.below he c hcs
          ih (Nat.lt_of_lt_of_le hlt (Nat.le_of_lt_succ hb)) (Nat.lt_trans hlt hd)
      rw [nameIs_inline he, nameBelow_inline he, shapeName_iff (hc d _ he) hparts]

/-- Names of types are finite, however types refer to one another. Whatever was interned into a
table of declarations, and whatever of it failed: what an inline entry refers to comes before it, no
entry is left without a body, and each entry has one name, put together in finitely many steps,
which is the name that the table gives. -/
theorem typeName_finite (hn : (Fields.names types).Nodup) (h : ofDeclarations types = .ok t)
    (es : List TypeExpr) :
    (∀ (d : TypeId) (s : Shape), (t.internEach es).HasInline d s → ∀ c ∈ s.children, c < d) ∧
      (∀ (d : TypeId) (e : Entry), (t.internEach es).entries[d]? = some e → e.shape ≠ .pending) ∧
      ∀ d < (t.internEach es).entries.size, ∀ n,
        (t.internEach es).NameIs d n ↔ n = (t.internEach es).typeName d := by
  obtain ⟨u, hdecl, -⟩ := declarationCalls_made hn h
  have hs := (eachCalls_made hdecl.sound es).sound
  have hc := preserved_complete.internEach es (ofDeclarations_complete hn h)
  exact ⟨fun d s hd => hs.below hd, hc, fun d hd n => nameIs_iff hs hc hd hd⟩

def rings : Declarations :=
  [("Ring", .record [("next", .union [.name "undefined", .name "Ring"]), ("all", .name "List")]),
    ("List", .union [.array (.name "List"), .name "Loop"]), ("Loop", .name "Ring")]

def torn : TypeExpr :=
  .record [("of", .array (.union [.name "Loop", .name "List"])), ("size", .bigint "n")]

/-- A request that fails has interned an array of rings before. -/
theorem typeName_finite_rings : (Fields.names rings).Nodup ∧
    ∃ t, ofDeclarations rings = .ok t ∧ (t.internEach [torn]).NameIs 6 "(Ring | List)[]" := by
  obtain ⟨t, ht⟩ : ∃ t, ofDeclarations rings = .ok t := exists_of_isOk (by decide +kernel)
  have hread : (ofDeclarations rings).toOption.map (fun t =>
      ((t.internEach [torn]).entries.size, (t.internEach [torn]).typeName 6)) =
        some (7, "(Ring | List)[]") := by decide +kernel
  rw [ht] at hread
  obtain ⟨hsize, hname⟩ := Prod.mk.inj (Option.some.inj hread)
  obtain ⟨-, -, hnames⟩ := typeName_finite (by decide) ht [torn]
  exact ⟨by decide, t, ht, (hnames 6 (by rw [hsize]; decide) _).2 hname.symm⟩

end Table

end Conform
