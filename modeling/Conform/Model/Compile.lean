import Conform.Model.Builder
import Conform.Model.Synthesis

/-! Compiling requests: all roots are resolved in one model before any of the program is
written, and nothing is written unless every request compiles. -/

namespace Conform

variable {D : Type} [DecidableEq D]

/-- The roots of requests, resolved in order. -/
def resolveRoots (o : Oracle D) (hooks : List (Hook D)) :
    Builder D → List (Request D) → Except CompileError (List Model.Root × Builder D)
  | b, [] => .ok ([], b)
  | b, r :: rs =>
    match b.resolve o hooks r.root with
    | (.error e, _) => .error e
    | (.ok id, b) => do
      let (roots, b) ← resolveRoots o hooks b rs
      return (⟨r.name, id, o.typeName r.root⟩ :: roots, b)

def routineOf (o : Oracle D) (h : Hook D) : Routine :=
  ⟨h.conversion, o.typeName h.result, h.body⟩

def compile (o : Oracle D) (requests : List (Request D)) (hooks : List (Hook D)) :
    Except CompileError Program := do
  Builder.checkHooks o hooks
  let (roots, b) ← resolveRoots o hooks .empty requests
  b.finish.program roots (hooks.map (routineOf o))

end Conform
