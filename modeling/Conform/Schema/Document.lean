import Conform.Schema.Table
import Conform.Model.Compile
import Conform.Transform.Builtin

/-! Schema documents: declared types, conversions, and the validators to generate. -/

namespace Conform

structure ConversionSpec where
  type : TypeExpr
  body : String
  builtin : Option Builtin

structure GenerateSpec where
  name : String
  type : TypeExpr

structure Document where
  fileName : String
  /-- Lines to copy to the top of the generated file. -/
  imports : List String
  types : Table.Declarations
  conversions : List ConversionSpec
  generate : List GenerateSpec

inductive ResolveError where
  | reference (e : ReferenceError)
  | duplicateValidator (name : String)
  deriving DecidableEq, Repr

def ResolveError.message : ResolveError → String
  | .reference e => e.message
  | .duplicateValidator name => "validator `" ++ name ++ "` is generated more than once"

/-- What a document asks for, in terms of its table. -/
structure Resolved where
  table : Table
  requests : List (Request TypeId)
  hooks : List (Hook TypeId)

/-- Either stage of compiling a document. -/
inductive BuildError where
  | resolve (e : ResolveError)
  | compile (e : CompileError)
  deriving DecidableEq, Repr

def BuildError.message : BuildError → String
  | .resolve e => e.message
  | .compile e => e.message

namespace ConversionSpec

/-- A body that is blank gives way to the script of the builtin. -/
def script (c : ConversionSpec) : String :=
  match c.builtin with
  | some builtin => if Text.isAllBlank c.body then builtin.source else c.body
  | none => c.body

end ConversionSpec

namespace Document

def defaultFileName : String := "generated.ts"

def empty : Document := ⟨defaultFileName, [], [], [], []⟩

def table (doc : Document) : Except ReferenceError Table := Table.ofDeclarations doc.types

/-- Interns the roots of validators, whose names differ. -/
def internRequests (t : Table) (seen : List String) :
    List GenerateSpec → Except ResolveError (List (Request TypeId) × Table)
  | [] => .ok ([], t)
  | g :: gs =>
    if seen.contains g.name then .error (.duplicateValidator g.name)
    else match t.intern g.type with
      | (.error e, _) => .error (.reference e)
      | (.ok root, t) => do
        let (requests, t) ← internRequests t (g.name :: seen) gs
        return (⟨g.name, root⟩ :: requests, t)

/-- Interns the targets of conversions and numbers them. -/
def internHooks (t : Table) (number : ConversionId) :
    List ConversionSpec → Except ReferenceError (List (Hook TypeId) × Table)
  | [] => .ok ([], t)
  | c :: cs =>
    match t.intern c.type with
    | (.error e, _) => .error e
    | (.ok target, t) => do
      let (hooks, t) ← internHooks t (number + 1) cs
      return (⟨target, c.script, number⟩ :: hooks, t)

def resolve (doc : Document) : Except ResolveError Resolved := do
  let t ← doc.table.mapError .reference
  let (requests, t) ← internRequests t [] doc.generate
  let (hooks, t) ← (internHooks t 1 doc.conversions).mapError .reference
  return ⟨t, requests, hooks⟩

def compile (doc : Document) : Except BuildError Program := do
  let r ← doc.resolve.mapError .resolve
  (Conform.compile r.table.oracle r.requests r.hooks).mapError .compile

/-- Transforms of the conversions that name a builtin, numbered from `number` on. -/
def transformsFrom (number : ConversionId) : List ConversionSpec → Transforms
  | [] => .empty
  | c :: cs =>
    match c.builtin with
    | some builtin => (transformsFrom (number + 1) cs).insert number builtin.transform
    | none => transformsFrom (number + 1) cs

def transforms (doc : Document) : Transforms := transformsFrom 1 doc.conversions

end Document

end Conform
