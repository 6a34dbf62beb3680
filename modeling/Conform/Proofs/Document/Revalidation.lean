import Conform.Proofs.Document.Entries
import Conform.Proofs.Model.Revisit
import Conform.Proofs.Schema.Distinct

/-! Validating again what a validator gave back. -/

namespace Conform.Document

section

variable {doc : Document} {r : Resolved} {roots : List Model.Root} {b : Builder TypeId}
  {p : Program}

theorem Distinct.table (hd : doc.Distinct) (h : doc.resolve = .ok r) : r.table.Distinct :=
  resolve_all Table.gives_distinct hd.types hd.conversions hd.generate h

theorem Compiles.distinct (h : doc.Compiles r roots b p) (hd : doc.Distinct) :
    b.finish.Distinct := by
  intro id record members hk
  obtain ⟨d, hn⟩ := h.advances.1.names_members hk
  have hn : Fields.names members = Fields.names (r.table.recordFields d) := hn
  rw [hn, Table.recordFields]
  cases hs : r.table.shape d with
  | record fields => exact hd.table h.resolved d fields hs
  | _ => exact List.nodup_nil

theorem Compiles.mem_roots (h : doc.Compiles r roots b p) {name : String}
    (hn : name ∈ doc.generate.map (·.name)) : ∃ root ∈ roots, root.name = name := by
  rw [← h.names.1] at hn
  exact List.mem_map.1 hn

theorem Compiles.mem_names (h : doc.Compiles r roots b p) {name : String} {ts : Transforms}
    {v w : Value} (hv : p.validate ts name v = .ok w) : name ∈ doc.generate.map (·.name) := by
  rw [← h.names.1, ← Model.names_validators h.programs.validators]
  unfold Program.validate at hv
  cases hf : p.validator? name with
  | none => simp [hf] at hv
  | some u =>
    have := List.find?_some hf
    exact List.mem_map.2 ⟨u, List.mem_of_find?_eq_some hf, by simpa using this⟩

end

/-- Validating what a validator gave back gives it back as it is, if each transform gives values
that are no arrays and no objects and that it keeps. -/
theorem validate_idempotent (doc : Document) (p : Program) (ts : Transforms) (name : String)
    (v w : Value) (hd : doc.Distinct) (hts : ts.Settled) (h : doc.compile = .ok p)
    (hv : p.validate ts name v = .ok w) : p.validate ts name w = .ok w := by
  obtain ⟨r, roots, b, h⟩ := compile_eq_ok.1 h
  obtain ⟨root, hroot, rfl⟩ := h.mem_roots (h.mem_names hv)
  obtain ⟨hvalid, -⟩ := h.advances
  have hdistinct := h.distinct hd
  have hvalidate : ∀ v, p.validate ts root.name v =
      (b.finish.visit ts root.node "value" v).map fun w => w.getD v :=
    h.programs.validate hvalid.flat hvalid.numbered (Or.inr hdistinct) h.names.2 hroot
  rw [hvalidate] at hv ⊢
  obtain ⟨x, hx, rfl⟩ := map_eq_ok.1 hv
  obtain ⟨y, hy, hkeep⟩ := (Model.visit_again hts hdistinct hx).keeps hx
  rw [hy, Except.map, hkeep]

/-- Notes with a text, which is empty where it is missing. -/
def notes : Document :=
  { empty with
    types := [("Note", .record [("text", .name "string"), ("ranks", .array (.name "number"))])]
    conversions := [⟨.name "string", "return value ?? '';", none⟩]
    generate := [⟨"parseNote", .name "Note"⟩] }

def textOrEmpty : Transform
  | .undefined => .ok (.string "")
  | .string s => .ok (.string s)
  | _ => .error "no text"

theorem notes_distinct : notes.Distinct := by
  refine ⟨?_, ?_, ?_⟩ <;>
    simp [notes, empty, TypeExpr.Distinct, fieldsDistinct, Fields.names]

theorem textOrEmpty_settled : Transforms.Settled ⟨[(1, textOrEmpty)]⟩ := by
  intro n t ht x y hy
  obtain rfl : t = textOrEmpty := by
    simp only [Transforms.get?, List.lookup_cons] at ht
    split at ht <;> simp_all
  cases x <;> cases hy <;> exact ⟨rfl, rfl⟩

theorem validate_idempotent_notes : ∃ p w, notes.Distinct ∧
    Transforms.Settled ⟨[(1, textOrEmpty)]⟩ ∧ notes.compile = .ok p ∧
    p.validate ⟨[(1, textOrEmpty)]⟩ "parseNote" (.object [("ranks", .array [])]) = .ok w ∧
    p.validate ⟨[(1, textOrEmpty)]⟩ "parseNote" w = .ok w := by
  obtain ⟨p, hp⟩ : ∃ p, notes.compile = .ok p := exists_of_isOk (by decide +kernel)
  have hrun : (notes.compile.toOption.elim false fun p =>
      (p.validate ⟨[(1, textOrEmpty)]⟩ "parseNote" (.object [("ranks", .array [])])).isOk) = true := by
    decide +kernel
  rw [hp] at hrun
  obtain ⟨w, hw⟩ := exists_of_isOk hrun
  exact ⟨p, w, notes_distinct, textOrEmpty_settled, hp, hw,
    validate_idempotent notes p _ _ _ w notes_distinct textOrEmpty_settled hp hw⟩

end Conform.Document
