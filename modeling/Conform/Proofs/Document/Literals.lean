import Conform.Proofs.Document.Entries
import Conform.Proofs.Model.Normal

/-! The literals of a document. A program tests for those alone, so that the program of a document
without a negative zero has none either. -/

namespace Conform

mutual

/-- The literals in a type expression, but for big integers that stand in it as text. -/
def TypeExpr.literals : TypeExpr → List Literal
  | .literal l => [l]
  | .array e => e.literals
  | .union es => allLiterals es
  | .record fs => fieldsLiterals fs
  | _ => []

def allLiterals : List TypeExpr → List Literal
  | [] => []
  | e :: es => e.literals ++ allLiterals es

def fieldsLiterals : List (String × TypeExpr) → List Literal
  | [] => []
  | (_, e) :: fs => e.literals ++ fieldsLiterals fs

end

theorem literals_subset {es : List TypeExpr} {e : TypeExpr} (he : e ∈ es) :
    e.literals ⊆ allLiterals es := by
  induction es with
  | nil => cases he
  | cons x es ih =>
    rcases List.mem_cons.1 he with rfl | he
    · exact List.subset_append_left _ _
    · exact List.subset_append_of_subset_right _ (ih he)

theorem literals_subset_fields {fs : List (String × TypeExpr)} {f : String × TypeExpr}
    (hf : f ∈ fs) : f.2.literals ⊆ fieldsLiterals fs := by
  induction fs with
  | nil => cases hf
  | cons g fs ih =>
    rcases List.mem_cons.1 hf with rfl | hf
    · exact List.subset_append_left _ _
    · exact List.subset_append_of_subset_right _ (ih hf)

theorem fieldsLiterals_subset {fs fs' : List (String × TypeExpr)} (h : fs ⊆ fs') :
    fieldsLiterals fs ⊆ fieldsLiterals fs' := by
  induction fs with
  | nil => exact List.nil_subset _
  | cons f fs ih =>
    exact List.append_subset.2 ⟨literals_subset_fields (h List.mem_cons_self),
      ih fun _ hf => h (List.mem_cons_of_mem _ hf)⟩

theorem Table.gives_normal :
    Table.Gives (fun e => ∀ l ∈ e.literals, l.normal = l) fun s => s.normal = s where
  pending := rfl
  keyword := fun _ => rfl
  literal := fun h => congrArg Shape.literal (h _ (List.mem_singleton_self _))
  bigint := fun _ => rfl
  array := fun _ => rfl
  element := fun h => h
  union := fun _ => rfl
  members := fun h _ he l hl => h l (literals_subset he hl)
  record := fun _ _ => rfl
  fields := fun h _ hf l hl => h l (literals_subset_fields hf hl)

theorem Builder.Valid.finish_normal {D : Type} [DecidableEq D] {o : Oracle D}
    {hooks : List (Hook D)} {b : Builder D} (h : b.Valid o hooks [])
    (ho : ∀ {d l}, o.literalValue d = some l → l.normal = l) : b.finish.normal = b.finish := by
  have hkind : ∀ id, (b.kind id).normal = b.kind id := by
    intro id
    cases hk : b.kind id with
    | literal l =>
      obtain ⟨d, hd⟩ := h.exists_type (by rw [hk]; simp) (by rw [hk]; simp)
      have hs := h.suits hd
      rw [hk] at hs
      cases hs with
      | @simple t _ _ _ ht => cases t <;> cases ht
      | literal _ _ _ hl => exact congrArg NodeKind.literal (ho hl)
    | _ => rfl
  have hnodes : b.nodes.map Node.normal = b.nodes := by
    refine Array.ext (by simp) fun id _ hid => ?_
    have hk := hkind id
    rw [Builder.kind, Builder.node?, Array.getElem?_eq_getElem hid] at hk
    rw [Array.getElem_map, Node.normal]
    exact congrArg (Node.mk _) hk
  rw [Model.normal]
  exact congrArg (Model.mk · _) hnodes

namespace Document

variable {doc : Document}

/-- The literals of a document, but for big integers. -/
def literals (doc : Document) : List Literal :=
  fieldsLiterals doc.types ++ (doc.conversions.flatMap (·.type.literals) ++
    doc.generate.flatMap (·.type.literals))

theorem resolve_normal {r : Resolved} (hl : ∀ l ∈ doc.literals, l.normal = l)
    (h : doc.resolve = .ok r) : r.table.All fun s => s.normal = s := by
  refine resolve_all Table.gives_normal (fun f hf l hmem => hl l ?_) (fun c hc l hmem => hl l ?_)
    (fun g hg l hmem => hl l ?_) h
  · exact List.mem_append_left _ (literals_subset_fields hf hmem)
  · exact List.mem_append_right _ (List.mem_append_left _ (List.mem_flatMap.2 ⟨c, hc, hmem⟩))
  · exact List.mem_append_right _ (List.mem_append_right _ (List.mem_flatMap.2 ⟨g, hg, hmem⟩))

/-- The program of a document without a negative zero has none. -/
theorem compile_normal {p : Program} (hl : ∀ l ∈ doc.literals, l.normal = l)
    (h : doc.compile = .ok p) : p.normal = p := by
  obtain ⟨r, roots, b, h⟩ := compile_eq_ok.1 h
  have htable := resolve_normal hl h.resolved
  have hmodel : b.finish.normal = b.finish := h.advances.1.finish_normal fun {d l} hd => by
    have hs := htable d
    unfold Table.oracle Table.literalValue at hd
    dsimp only at hd
    split at hd <;> cases hd
    rename_i hshape
    rw [hshape] at hs
    exact Shape.literal.inj hs
  have hp := b.finish.program_normal roots (r.hooks.map (routineOf r.table.oracle))
  rw [hmodel, h.written] at hp
  exact (Except.ok.inj hp).symm

end Document

end Conform
