import Conform.Program.Basic

/-! Transforms: what conversions do to values, by number. -/

namespace Conform

/-- A transform gives a new value or refuses with a message. -/
abbrev Transform := Value → Except String Value

structure Transforms where
  entries : List (ConversionId × Transform)

namespace Transforms

def empty : Transforms := ⟨[]⟩

def get? (ts : Transforms) (conversion : ConversionId) : Option Transform :=
  ts.entries.lookup conversion

/-- The transform that was put last counts. -/
def insert (ts : Transforms) (conversion : ConversionId) (t : Transform) : Transforms :=
  ⟨(conversion, t) :: ts.entries.filter (·.1 != conversion)⟩

def conversions (ts : Transforms) : List ConversionId :=
  (ts.entries.map (·.1)).mergeSort

end Transforms

end Conform
