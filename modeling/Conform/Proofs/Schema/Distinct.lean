import Mathlib.Data.List.Nodup
import Conform.Schema.Decode
import Conform.Proofs.Schema.Shapes

/-! Documents whose records have each field once. Decoding gives no others, and then the records
of tables have each field once as well. -/

namespace Conform

mutual

/-- Whether every record in a type expression has each field once. -/
def TypeExpr.Distinct : TypeExpr → Prop
  | .array e => e.Distinct
  | .union es => allDistinct es
  | .record fs => (Fields.names fs).Nodup ∧ fieldsDistinct fs
  | _ => True

def allDistinct : List TypeExpr → Prop
  | [] => True
  | e :: es => e.Distinct ∧ allDistinct es

def fieldsDistinct : List (String × TypeExpr) → Prop
  | [] => True
  | (_, e) :: fs => e.Distinct ∧ fieldsDistinct fs

end

theorem allDistinct_iff {es : List TypeExpr} : allDistinct es ↔ ∀ e ∈ es, e.Distinct := by
  induction es with
  | nil => simp [allDistinct]
  | cons e es ih => simp [allDistinct, ih]

theorem fieldsDistinct_iff {fs : List (String × TypeExpr)} :
    fieldsDistinct fs ↔ ∀ f ∈ fs, f.2.Distinct := by
  induction fs with
  | nil => simp [fieldsDistinct]
  | cons f fs ih => simp [fieldsDistinct, ih]

/-- Whether every type expression of a document has each field once in each record. -/
structure Document.Distinct (doc : Document) : Prop where
  types : ∀ t ∈ doc.types, t.2.Distinct
  conversions : ∀ c ∈ doc.conversions, c.type.Distinct
  generate : ∀ g ∈ doc.generate, g.type.Distinct

/-! ### Tables -/

namespace Table

/-- Whether the records of a table have each field once. -/
def Distinct (t : Table) : Prop :=
  ∀ d fields, t.shape d = .record fields → (Fields.names fields).Nodup

theorem gives_distinct : Gives TypeExpr.Distinct fun s =>
    ∀ fields, s = .record fields → (Fields.names fields).Nodup where
  pending := fun _ h => nomatch h
  keyword := fun _ _ h => nomatch h
  literal := fun _ _ h => nomatch h
  bigint := fun _ _ h => nomatch h
  array := fun _ _ h => nomatch h
  element := fun he => he
  union := fun _ _ h => nomatch h
  members := allDistinct_iff.1
  record := by
    rintro fs ds he hn fields h
    cases h
    rw [hn]
    exact he.1
  fields := fun he => fieldsDistinct_iff.1 he.2

end Table

end Conform
