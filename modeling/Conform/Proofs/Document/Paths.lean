import Conform.Proofs.Document.RecordChecks
import Conform.Proofs.Model.Acts
import Conform.Proofs.TypeScript.Sum

/-! Every path in a program begins with text: with the name of the value or with the path that its
record check was given. Going into fields and items keeps that, and so does folding. The sums that
are printed for paths and for messages therefore have the values that a run gives them. -/

namespace Conform

/-- Whether an operand makes a text of whatever is added to it, and is not left out. -/
def PathPart.IsText : PathPart → Prop
  | .text s => s ≠ ""
  | .given => True
  | .counter _ => False

namespace Path

/-- Whether a path begins with text. -/
def Anchored (path : Path) : Prop := ∃ p ps, path.parts = p :: ps ∧ p.IsText

theorem Anchored.append {left : Path} (h : left.Anchored) (right : Path) :
    (Path.append left right).Anchored := by
  obtain ⟨p, ps, hp, ht⟩ := h
  exact ⟨p, ps ++ right.parts, by rw [parts, hp, List.cons_append], ht⟩

theorem exists_merge_cons {p : PathPart} (hp : p.IsText) (ps : List PathPart) :
    ∃ q qs, merge (p :: ps) = q :: qs ∧ q.IsText := by
  cases p with
  | text s =>
    rw [merge]
    split
    · rename_i t qs _
      refine ⟨.text (s ++ t), qs, rfl, fun h => hp ?_⟩
      exact (String.append_eq_empty_iff.1 h).1
    · exact ⟨.text s, _, rfl, hp⟩
  | given => exact ⟨.given, merge ps, rfl, hp⟩
  | counter depth => exact hp.elim

theorem Anchored.folded {path : Path} (h : path.Anchored) : path.folded.Anchored := by
  obtain ⟨p, ps, hp, ht⟩ := h
  obtain ⟨q, qs, hq, hqt⟩ := exists_merge_cons ht ps
  have hne : q ≠ .text "" := by
    rintro rfl
    exact hqt rfl
  refine ⟨q, qs.filter fun p => p ≠ .text "", ?_, hqt⟩
  rw [Path.folded, hp, hq, List.filter_cons_of_pos (by simpa using hne), ofParts, parts_foldl,
    parts_toPath]
  rfl

theorem Anchored.inside {m : Model} {site t : Model.Site} {id x : NodeId}
    (h : site.path.Anchored) (hin : m.Inside site id t x) : t.path.Anchored := by
  induction hin with
  | self => exact h
  | item _ _ ih => exact ih (((h.append _).append _).append _)

theorem Anchored.failure {path : Path} (h : path.Anchored) (expected : List String) :
    (TypeScript.failure path expected).Anchored :=
  (h.append _).folded

theorem anchored_root : Model.Site.root.path.Anchored :=
  ⟨.text "value", [], rfl, (by decide : "value" ≠ "")⟩

theorem anchored_field (name : String) : (Model.Site.field name).path.Anchored :=
  ⟨.given, [.text ("." ++ name)], rfl, trivial⟩

end Path

namespace TypeScript

theorem sum?_anchored {path : Path} (h : path.Anchored) (scope : Scope) :
    sum? scope (TypeScript.path path) = some (.text (path.eval scope.given scope.counter)) := by
  obtain ⟨p, ps, hp, ht⟩ := h
  cases p with
  | text s => exact sum?_path scope hp rfl
  | given => exact sum?_path scope hp rfl
  | counter depth => exact ht.elim

end TypeScript

namespace Document

open TypeScript

variable {doc : Document} {r : Resolved} {roots : List Model.Root} {b : Builder TypeId}
  {p : Program} {stmts : List Stmt}

theorem Compiles.body (h : doc.Compiles r roots b p) (hbody : stmts ∈ p.bodies) :
    (∃ root ∈ roots, b.finish.stmts .root root.node = .ok stmts) ∨
      ∃ members, b.finish.fieldStmts members = .ok stmts := by
  rcases List.mem_append.1 hbody with hv | hc
  · obtain ⟨v, hmem, rfl⟩ := List.mem_map.1 hv
    obtain ⟨root, hroot, -, hstmts⟩ := exists_of_mem_right h.programs.validators hmem
    exact Or.inl ⟨root, hroot, hstmts⟩
  · obtain ⟨c, hmem, rfl⟩ := List.mem_map.1 hc
    obtain ⟨members, -, hfields⟩ :=
      (h.programs.covers c.record c (h.recordCheck?_self hmem).2).1
    exact Or.inr ⟨members, hfields⟩

theorem Compiles.exists_anchored (h : doc.Compiles r roots b p) (hbody : stmts ∈ p.bodies)
    {a : Act} (ha : a ∈ allActs stmts) :
    ∃ t x, t.path.Anchored ∧ b.finish.ActsAt t x a := by
  have hflat := h.advances.1.flat
  rcases h.body hbody with ⟨root, -, hstmts⟩ | ⟨members, hfields⟩
  · obtain ⟨t, x, hin, hact⟩ := (Model.mem_acts_stmts hflat hstmts).1 ha
    exact ⟨t, x, Path.anchored_root.inside hin, hact⟩
  · obtain ⟨f, -, t, x, hin, hact⟩ := (Model.mem_acts_fieldStmts hflat hfields).1 ha
    exact ⟨t, x, (Path.anchored_field f.1).inside hin, hact⟩

/-- The sums that are printed for the messages of failures and for the paths of calls have the
values that a run gives them, whatever path is given and whatever the counters are. -/
theorem printed_paths_eval (doc : Document) (p : Program) (h : doc.compile = .ok p) (given : String)
    (counter : Nat → Nat) : ∀ body ∈ p.bodies,
      (∀ path expected, Act.fail path expected ∈ allActs body →
        sum? ⟨given, counter⟩ (TypeScript.path (failure path expected)) =
          some (.text (CheckError.mismatch (path.eval given counter) expected).message)) ∧
      ∀ record place path, Act.call record place path ∈ allActs body →
        sum? ⟨given, counter⟩ (TypeScript.path path) =
          some (.text (path.eval given counter)) := by
  obtain ⟨r, roots, b, h⟩ := compile_eq_ok.1 h
  intro body hbody
  constructor
  · intro path expected hfail
    obtain ⟨t, x, hpath, hact⟩ := h.exists_anchored hbody hfail
    cases hact
    have hfailure := hpath.folded.failure (firstOccurrences ((b.finish.tests x).map (·.label)))
    rw [sum?_anchored hfailure, eval_failure]
  · intro record place path hcall
    obtain ⟨t, x, hpath, hact⟩ := h.exists_anchored hbody hcall
    cases hact
    exact sum?_anchored hpath.folded _

def sheets : Document :=
  { empty with
    types := [("Sheet", .record [("rows", .array (.array (.name "number"))),
      ("next", .union [.name "Sheet", .name "null"])])]
    generate := [⟨"parseSheets", .array (.name "Sheet")⟩] }

theorem printed_paths_eval_sheets :
    ∃ p, sheets.compile = .ok p ∧ ∀ given counter, ∀ body ∈ p.bodies,
      (∀ path expected, Act.fail path expected ∈ allActs body →
        sum? ⟨given, counter⟩ (TypeScript.path (failure path expected)) =
          some (.text (CheckError.mismatch (path.eval given counter) expected).message)) ∧
      ∀ record place path, Act.call record place path ∈ allActs body →
        sum? ⟨given, counter⟩ (TypeScript.path path) =
          some (.text (path.eval given counter)) := by
  obtain ⟨p, hp⟩ : ∃ p, sheets.compile = .ok p := exists_of_isOk (by decide +kernel)
  exact ⟨p, hp, printed_paths_eval sheets p hp⟩

/-- Counters at the beginning would be added as numbers. -/
example : sum? ⟨"value[2]", (· + 3)⟩ "path + \".rows[\" + i + \"][\" + j + \"] is not Number.\"" =
      some (.text "value[2].rows[3][4] is not Number.") ∧
    sum? ⟨"value[2]", (· + 3)⟩ "i + j + \" is not Number.\"" = some (.text "7 is not Number.") := by
  decide +kernel

end Document

end Conform
