import Conform.Proofs.Document.Revalidation
import Conform.Proofs.Model.Locations

/-! Where a validator fails, told from the path of its error. Paths are texts of locations: they
tell where a value fails as long as the fields of each record can be told apart in texts. Fields of
any names cannot. -/

namespace Conform

section

variable (P : List String → Prop)

mutual

/-- Whether something holds of the names of the fields of every record in a type expression. -/
def TypeExpr.AllRecords : TypeExpr → Prop
  | .array e => e.AllRecords
  | .union es => allRecordsOf es
  | .record fs => P (Fields.names fs) ∧ fieldsRecordsOf fs
  | _ => True

def allRecordsOf : List TypeExpr → Prop
  | [] => True
  | e :: es => e.AllRecords ∧ allRecordsOf es

def fieldsRecordsOf : List (String × TypeExpr) → Prop
  | [] => True
  | (_, e) :: fs => e.AllRecords ∧ fieldsRecordsOf fs

end

end

variable {P : List String → Prop}

theorem allRecordsOf_iff {es : List TypeExpr} :
    allRecordsOf P es ↔ ∀ e ∈ es, e.AllRecords P := by
  induction es with
  | nil => simp [allRecordsOf]
  | cons e es ih => simp [allRecordsOf, ih]

theorem fieldsRecordsOf_iff {fs : List (String × TypeExpr)} :
    fieldsRecordsOf P fs ↔ ∀ f ∈ fs, f.2.AllRecords P := by
  induction fs with
  | nil => simp [fieldsRecordsOf]
  | cons f fs ih => simp [fieldsRecordsOf, ih]

theorem Table.gives_allRecords : Table.Gives (TypeExpr.AllRecords P) fun s =>
    ∀ fields, s = .record fields → P (Fields.names fields) where
  pending := fun _ h => nomatch h
  keyword := fun _ _ h => nomatch h
  literal := fun _ _ h => nomatch h
  bigint := fun _ _ h => nomatch h
  array := fun _ _ h => nomatch h
  element := fun he => he
  union := fun _ _ h => nomatch h
  members := allRecordsOf_iff.1
  record := by
    rintro fs ds he hn fields h
    cases h
    rw [hn]
    exact he.1
  fields := fun he => fieldsRecordsOf_iff.1 he.2

namespace Document

/-- Whether the fields of every record of a document can be told apart in texts. -/
structure Readable (doc : Document) : Prop where
  types : ∀ t ∈ doc.types, t.2.AllRecords Conform.Readable
  conversions : ∀ c ∈ doc.conversions, c.type.AllRecords Conform.Readable
  generate : ∀ g ∈ doc.generate, g.type.AllRecords Conform.Readable

section

variable {doc : Document} {r : Resolved} {roots : List Model.Root} {b : Builder TypeId}
  {p : Program} {name path : String} {ts : Transforms} {v : Value} {expected : List String}

theorem Compiles.readable (h : doc.Compiles r roots b p) (hr : doc.Readable) :
    b.finish.Readable := by
  intro id record members hk
  obtain ⟨d, hn⟩ := h.advances.1.names_members hk
  have hn : Fields.names members = Fields.names (r.table.recordFields d) := hn
  rw [hn, Table.recordFields]
  cases hs : r.table.shape d with
  | record fields =>
    exact resolve_all Table.gives_allRecords hr.types hr.conversions hr.generate h.resolved d fields
      hs
  | _ => exact List.Pairwise.nil

theorem Compiles.points (h : doc.Compiles r roots b p) (hc : doc.conversions = [])
    {root : Model.Root} (hroot : root ∈ roots)
    (hv : p.validate ts root.name v = .error (.mismatch path expected)) :
    b.finish.Points root.node v [] "value" path (p.looks ts root.name v) := by
  obtain ⟨hvalid, -⟩ := h.advances
  have hplain : b.finish.Plain := by
    rw [h.hooks_nil hc] at hvalid
    exact hvalid.plain
  obtain ⟨u, hu, hfind, hbody⟩ := h.programs.exists_validator h.names.2 hroot
  obtain ⟨chain, hchain, hbody⟩ := bind_eq_ok.1 hbody
  have hbody := Except.ok.inj hbody
  have hpointed : b.finish.Pointed p ts (v.depth + Program.spareDepth) v :=
    Model.pointed hvalid.flat hvalid.numbered hplain h.programs.covers (Nat.le_add_right _ _)
  rw [Program.validate, hfind] at hv
  rcases bind_eq_error.1 hv with hrun | ⟨_, -, hrun⟩
  · have hpoints := hpointed "" ⟨v, []⟩ Model.Site.Scoped.root hchain
      (by rw [hbody]; exact h.programs.calls u hu) (Nat.le_refl 0) rfl (fun _ => rfl)
      (by rw [hbody]; exact hrun)
    rw [hbody] at hpoints
    rw [Program.looks, hfind]
    have hpath : Model.Site.root.path.eval "" (Counters.get []) = "value" := by
      simp [Model.Site.root, Path.eval, Path.parts, Path.partText]
    rwa [hpath] at hpoints
  · cases hrun

theorem Compiles.exists_root_of_error (h : doc.Compiles r roots b p) {e : CheckError}
    (hv : p.validate ts name v = .error e) (he : e.isVerdict) :
    ∃ root ∈ roots, root.name = name := by
  unfold Program.validate at hv
  cases hf : p.validator? name with
  | none =>
    rw [hf] at hv
    cases hv
    cases he
  | some u =>
    obtain ⟨root, hroot, hname, -⟩ :=
      exists_of_mem_right h.programs.validators (List.mem_of_find?_eq_some hf)
    have hu : u.name = name := by simpa using List.find?_some hf
    exact ⟨root, hroot, hname.symm.trans hu⟩

end

/-- Without conversions the path of an error is the text of the location that the run looked at
last. If fields can be told apart in texts, values that fail with the same path fail at the same
location. -/
theorem paths_identify (doc : Document) (p : Program) (ts : Transforms) (name path : String)
    (v w : Value) (expected expected' : List String) (hc : doc.conversions = [])
    (hr : doc.Readable) (h : doc.compile = .ok p)
    (hv : p.validate ts name v = .error (.mismatch path expected))
    (hw : p.validate ts name w = .error (.mismatch path expected')) :
    ∃ x y, (p.looks ts name v).getLast? = some x ∧ (p.looks ts name w).getLast? = some y ∧
      x.steps = y.steps ∧ path = "value" ++ locationText x.steps := by
  obtain ⟨r, roots, b, h⟩ := compile_eq_ok.1 h
  obtain ⟨root, hroot, rfl⟩ := h.exists_root_of_error hv rfl
  obtain ⟨l, x, hfails, hl, hx, hat⟩ := h.points hc hroot hv
  obtain ⟨k, y, hfails', hk, hy, hat'⟩ := h.points hc hroot hw
  have htext : locationText l = locationText k := by
    rwa [hl, String.append_right_inj] at hk
  obtain rfl := hfails.unique (h.readable hr) hfails' htext
  rw [List.nil_append] at hat hat'
  exact ⟨x, y, hx, hy, by rw [hat, hat'], by rw [hat, hl]⟩

def failsWith (result : Except CheckError Value) (e : CheckError) : Bool :=
  match result with
  | .ok _ => false
  | .error e' => e' = e

theorem failsWith_iff {result : Except CheckError Value} {e : CheckError} :
    failsWith result e = true ↔ result = .error e := by
  cases result <;> simp [failsWith]

/-- Lists of marks, which have notes. -/
def marks : Document :=
  { empty with
    types := [("Mark", .record [("at", .array (.name "number")), ("note", .name "string")])]
    generate := [⟨"parseMarks", .array (.name "Mark")⟩] }

theorem marks_readable : marks.Readable := by
  have hnames : Conform.Readable ["at", "note"] :=
    .cons (by simpa using apart_of_plain (by decide) (by decide) (by decide)) (.cons (by simp) .nil)
  refine ⟨?_, ?_, ?_⟩
  · simpa [marks, empty, TypeExpr.AllRecords, fieldsRecordsOf, Fields.names] using hnames
  · simp [marks, empty]
  · simp [marks, empty, TypeExpr.AllRecords]

def unplaced : Value := .array [.object [("at", .array [.number .zero, .null])]]

def misplaced : Value := .array [.object [("at", .array [.number .zero, .string "far"])]]

theorem paths_identify_marks : ∃ p x y, marks.Readable ∧ marks.compile = .ok p ∧
    p.validate .empty "parseMarks" unplaced = .error (.mismatch "value[0].at[1]" ["Number"]) ∧
    p.validate .empty "parseMarks" misplaced = .error (.mismatch "value[0].at[1]" ["Number"]) ∧
    (p.looks .empty "parseMarks" unplaced).getLast? = some x ∧
    (p.looks .empty "parseMarks" misplaced).getLast? = some y ∧ x.steps = y.steps ∧
    "value[0].at[1]" = "value" ++ locationText x.steps := by
  obtain ⟨p, hp⟩ : ∃ p, marks.compile = .ok p := exists_of_isOk (by decide +kernel)
  have hrun : (marks.compile.toOption.elim false fun p =>
      failsWith (p.validate .empty "parseMarks" unplaced)
        (.mismatch "value[0].at[1]" ["Number"]) &&
      failsWith (p.validate .empty "parseMarks" misplaced)
        (.mismatch "value[0].at[1]" ["Number"])) = true := by decide +kernel
  rw [hp] at hrun
  obtain ⟨hv, hw⟩ := Bool.and_eq_true_iff.1 hrun
  replace hv := failsWith_iff.1 hv
  replace hw := failsWith_iff.1 hw
  obtain ⟨x, y, hx, hy, hsteps, htext⟩ := paths_identify marks p .empty _ _ _ _ _ _ rfl
    marks_readable hp hv hw
  exact ⟨p, x, y, marks_readable, hp, hv, hw, hx, hy, hsteps, htext⟩

/-- A record with a field whose name says what a field inside another one says. -/
def dotted : Document :=
  { empty with
    types := [("Pair", .record [("a.b", .name "number"),
      ("a", .record [("b", .name "number")])])]
    generate := [⟨"parsePair", .name "Pair"⟩] }

/-- The two fields fail with the same path. -/
theorem dotted_paths_clash : ∃ p v w, dotted.compile = .ok p ∧
    p.validate .empty "parsePair" v = .error (.mismatch "value.a.b" ["Number"]) ∧
    p.validate .empty "parsePair" w = .error (.mismatch "value.a.b" ["Number"]) ∧
    (p.looks .empty "parsePair" v).getLast?.map (·.steps) = some [.field "a.b"] ∧
    (p.looks .empty "parsePair" w).getLast?.map (·.steps) = some [.field "a", .field "b"] := by
  obtain ⟨p, hp⟩ : ∃ p, dotted.compile = .ok p := exists_of_isOk (by decide +kernel)
  have hrun : (dotted.compile.toOption.elim false fun p =>
      failsWith (p.validate .empty "parsePair" (.object []))
        (.mismatch "value.a.b" ["Number"]) &&
      failsWith (p.validate .empty "parsePair"
          (.object [("a.b", .number .zero), ("a", .object [])]))
        (.mismatch "value.a.b" ["Number"]) &&
      decide ((p.looks .empty "parsePair" (.object [])).getLast?.map (·.steps) =
        some [.field "a.b"]) &&
      decide ((p.looks .empty "parsePair"
          (.object [("a.b", .number .zero), ("a", .object [])])).getLast?.map (·.steps) =
        some [.field "a", .field "b"])) = true := by
    simp only [Document.compile, Conform.compile, Model.program, mergeSort_key]
    decide +kernel
  rw [hp] at hrun
  refine ⟨p, .object [], .object [("a.b", .number .zero), ("a", .object [])], hp, ?_⟩
  simpa [failsWith_iff, and_assoc, Except.toOption] using hrun

end Document

end Conform
