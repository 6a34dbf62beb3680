import Conform.Proofs.Builder.Endless
import Conform.Proofs.Document.Revalidation
import Conform.Proofs.Model.Changes

/-! What a validator gives back is what it was given, but for the results of conversions. -/

namespace Conform.Document

/-- A validator changes a value only where a conversion takes it, whatever transforms do: the
value that it gives back comes from the one that it was given as the node of its type allows. -/
theorem validate_changes (doc : Document) (p : Program) (ts : Transforms) (name : String)
    (v w : Value) (hd : doc.Distinct) (h : doc.compile = .ok p)
    (hv : p.validate ts name v = .ok w) :
    ∃ roots m, doc.graph = .ok (roots, m) ∧
      ∃ root ∈ roots, root.name = name ∧ m.Changes ts root.node v w := by
  obtain ⟨r, roots, b, h⟩ := compile_eq_ok.1 h
  obtain ⟨root, hroot, rfl⟩ := h.mem_roots (h.mem_names hv)
  obtain ⟨hvalid, -⟩ := h.advances
  have hdistinct := h.distinct hd
  rw [h.programs.validate hvalid.flat hvalid.numbered (Or.inr hdistinct) h.names.2 hroot] at hv
  obtain ⟨x, hx, rfl⟩ := map_eq_ok.1 hv
  exact ⟨roots, b.finish, h.graph, root, hroot, rfl, Model.visit_changes hvalid.whole hdistinct hx⟩

/-- Notes that may have replies, with a text that is empty where it is missing. -/
def threads : Document :=
  { empty with
    types := [("Note", .record [("text", .name "string"),
      ("replies", .union [.array (.name "Note"), .name "undefined"])])]
    conversions := [⟨.name "string", "return value ?? '';", none⟩]
    generate := [⟨"parseNote", .name "Note"⟩] }

def untitled : Value := .object [("replies", .array [.object []]), ("pinned", .bool true)]

theorem threads_distinct : threads.Distinct := by
  refine ⟨?_, ?_, ?_⟩ <;>
    simp [threads, empty, TypeExpr.Distinct, allDistinct, fieldsDistinct, Fields.names]

theorem validate_changes_threads : ∃ p w, threads.Distinct ∧ threads.compile = .ok p ∧
    p.validate ⟨[(1, textOrEmpty)]⟩ "parseNote" untitled = .ok w ∧
    ∃ roots m, threads.graph = .ok (roots, m) ∧ ∃ root ∈ roots, root.name = "parseNote" ∧
      m.Changes ⟨[(1, textOrEmpty)]⟩ root.node untitled w := by
  obtain ⟨p, hp⟩ : ∃ p, threads.compile = .ok p := exists_of_isOk (by decide +kernel)
  have hrun : (threads.compile.toOption.elim false fun p =>
      (p.validate ⟨[(1, textOrEmpty)]⟩ "parseNote" untitled).isOk) = true := by decide +kernel
  rw [hp] at hrun
  obtain ⟨w, hw⟩ := exists_of_isOk hrun
  exact ⟨p, w, threads_distinct, hp, hw,
    validate_changes threads p _ _ _ w threads_distinct hp hw⟩

end Conform.Document
