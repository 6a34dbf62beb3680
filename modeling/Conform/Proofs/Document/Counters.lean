import Conform.Proofs.Document.Paths
import Conform.Proofs.Model.Occurrences

/-! Loop counters. Depths are counted anew in every body, from the outermost loop inwards, so that
the counters that are used somewhere are those of the loops around it and a loop takes one that none
of them has. -/

namespace Conform

namespace Document

variable {doc : Document} {r : Resolved} {roots : List Model.Root} {b : Builder TypeId}
  {p : Program} {stmts : List Stmt} {loops : List Nat} {s : Stmt}

theorem Compiles.exists_scoped (h : doc.Compiles r roots b p) (hbody : stmts ∈ p.bodies)
    (ho : Occurs loops s stmts) :
    ∃ t x, t.Scoped ∧ b.finish.StmtAt t x s ∧ loops = List.range t.depth := by
  have hflat := h.advances.1.flat
  rcases h.body hbody with ⟨root, -, hstmts⟩ | ⟨members, hfields⟩
  · obtain ⟨t, x, hin, hs, hloops⟩ := Model.exists_inside_of_occurs_stmts hflat rfl hstmts ho
    exact ⟨t, x, Model.Site.Scoped.root.inside hin, hs, hloops⟩
  · obtain ⟨f, -, t, x, hin, hs, hloops⟩ :=
      Model.exists_inside_of_occurs_fieldStmts hflat hfields ho
    exact ⟨t, x, (Model.Site.Scoped.field f.1).inside hin, hs, hloops⟩

theorem Compiles.given_notMem (h : doc.Compiles r roots b p) {v : Validator}
    (hv : v ∈ p.validators) (ho : Occurs loops s v.body) :
    ∀ path ∈ s.paths, .given ∉ path.parts := by
  intro path hpath
  obtain ⟨root, -, -, hstmts⟩ := exists_of_mem_right h.programs.validators hv
  obtain ⟨t, x, hin, hs, -⟩ :=
    Model.exists_inside_of_occurs_stmts h.advances.1.flat rfl hstmts ho
  rw [hs.path path hpath, Path.mem_parts_folded_of_not_fixed rfl]
  exact hin.given_notMem (by decide)

/-- Loop counters are well scoped. A loop inside `k` others has depth `k`, and counters in places
and paths are those of loops around them; only record checks go on from a path that they were given.
Counters have names of their own, which are none of parameters, so no loop hides a name that is in
use around it. -/
theorem counters_scoped (doc : Document) (p : Program) (h : doc.compile = .ok p) :
    (∀ body ∈ p.bodies, ∀ loops s, Occurs loops s body → s.InScope loops) ∧
      (∀ v ∈ p.validators, ∀ loops s, Occurs loops s v.body →
        ∀ path ∈ s.paths, .given ∉ path.parts) ∧
      Function.Injective counterName ∧
      (∀ depth, counterName depth ≠ "value" ∧ counterName depth ≠ "path") ∧
      ∀ body ∈ p.bodies, ∀ loops array depth inner,
        Occurs loops (.forEach array depth inner) body →
          counterName depth ∉ "value" :: "path" :: loops.map counterName := by
  obtain ⟨r, roots, b, h⟩ := compile_eq_ok.1 h
  have hscope : ∀ body ∈ p.bodies, ∀ loops s, Occurs loops s body → s.InScope loops := by
    intro body hbody loops s ho
    obtain ⟨t, x, hscoped, hs, rfl⟩ := h.exists_scoped hbody ho
    exact hs.inScope hscoped
  have hvalue : ∀ depth, counterName depth ≠ "value" := fun _ => counterName_ne (by decide)
  have hpath : ∀ depth, counterName depth ≠ "path" := fun _ => counterName_ne (by decide)
  refine ⟨hscope, fun v hv loops s ho => h.given_notMem hv ho, counterName_injective,
    fun depth => ⟨hvalue depth, hpath depth⟩, fun body hbody loops array depth inner ho => ?_⟩
  obtain ⟨t, x, -, -, hloops⟩ := h.exists_scoped hbody ho
  have hdepth := (hscope body hbody loops _ ho).depth array depth inner rfl
  rw [List.mem_cons, List.mem_cons, not_or, not_or]
  refine ⟨hvalue depth, hpath depth, fun hmem => ?_⟩
  -- the loops around have smaller depths
  obtain ⟨d, hd, hname⟩ := List.mem_map.1 hmem
  obtain rfl := counterName_injective hname
  rw [hloops, List.length_range] at hdepth
  rw [hloops, List.mem_range] at hd
  omega

theorem counters_scoped_sheets :
    ∃ p, sheets.compile = .ok p ∧
      (∀ body ∈ p.bodies, ∀ loops s, Occurs loops s body → s.InScope loops) ∧
      ∀ v ∈ p.validators, ∀ loops s, Occurs loops s v.body →
        ∀ path ∈ s.paths, .given ∉ path.parts := by
  obtain ⟨p, hp⟩ : ∃ p, sheets.compile = .ok p := exists_of_isOk (by decide +kernel)
  obtain ⟨hscope, hgiven, -⟩ := counters_scoped sheets p hp
  exact ⟨p, hp, hscope, hgiven⟩

end Document

end Conform
