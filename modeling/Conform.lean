import Conform.Command.Arguments
import Conform.Command.Basic
import Conform.Command.Run
import Conform.Command.Shown
import Conform.Fields
import Conform.Files.Basic
import Conform.Files.Path
import Conform.Files.Pattern
import Conform.Files.Search
import Conform.Files.Tree
import Conform.Json.Basic
import Conform.Json.Fault
import Conform.Json.Pointer
import Conform.Json.Reader
import Conform.Json.Tree
import Conform.Literal
import Conform.Main
import Conform.Model.Basic
import Conform.Model.Builder
import Conform.Model.Compile
import Conform.Model.Synthesis
import Conform.Number.Decimal
import Conform.Number.Double
import Conform.Number.Numeral
import Conform.Number.Shortest
import Conform.Oracle
import Conform.Program.Basic
import Conform.Program.Path
import Conform.Program.Place
import Conform.Program.Run
import Conform.Program.Transforms
import Conform.Program.TypeScript
import Conform.Proofs.Builder.Arranged
import Conform.Proofs.Builder.Booleans
import Conform.Proofs.Builder.Competing
import Conform.Proofs.Builder.Compile
import Conform.Proofs.Builder.Conversions
import Conform.Proofs.Builder.Endless
import Conform.Proofs.Builder.Failures
import Conform.Proofs.Builder.Folding
import Conform.Proofs.Builder.Graph
import Conform.Proofs.Builder.Image
import Conform.Proofs.Builder.Lenient
import Conform.Proofs.Builder.Lockstep
import Conform.Proofs.Builder.Matching
import Conform.Proofs.Builder.Meaning
import Conform.Proofs.Builder.Members
import Conform.Proofs.Builder.Mirroring
import Conform.Proofs.Builder.Nested
import Conform.Proofs.Builder.Numbering
import Conform.Proofs.Builder.Pieces
import Conform.Proofs.Builder.Recursion
import Conform.Proofs.Builder.Resolving
import Conform.Proofs.Builder.Returns
import Conform.Proofs.Builder.Runs
import Conform.Proofs.Builder.Steps
import Conform.Proofs.Builder.Termination
import Conform.Proofs.Builder.Valid
import Conform.Proofs.Builder.Walk
import Conform.Proofs.Builder.Walking
import Conform.Proofs.Document.Changes
import Conform.Proofs.Document.Competing
import Conform.Proofs.Document.Conversions
import Conform.Proofs.Document.Counters
import Conform.Proofs.Document.Dates
import Conform.Proofs.Document.Entries
import Conform.Proofs.Document.Graph
import Conform.Proofs.Document.Hollow
import Conform.Proofs.Document.Keyed
import Conform.Proofs.Document.Labels
import Conform.Proofs.Document.Literals
import Conform.Proofs.Document.Locations
import Conform.Proofs.Document.Order
import Conform.Proofs.Document.Paths
import Conform.Proofs.Document.Rearrangement
import Conform.Proofs.Document.RecordChecks
import Conform.Proofs.Document.Requests
import Conform.Proofs.Document.Revalidation
import Conform.Proofs.Document.Safety
import Conform.Proofs.Document.Selection
import Conform.Proofs.Document.Soundness
import Conform.Proofs.Model.Acts
import Conform.Proofs.Model.Alternatives
import Conform.Proofs.Model.Changes
import Conform.Proofs.Model.Direct
import Conform.Proofs.Model.Endless
import Conform.Proofs.Model.Labels
import Conform.Proofs.Model.Likeness
import Conform.Proofs.Model.Locations
import Conform.Proofs.Model.Looking
import Conform.Proofs.Model.Normal
import Conform.Proofs.Model.Occurrences
import Conform.Proofs.Model.RecordChecks
import Conform.Proofs.Model.Revisit
import Conform.Proofs.Model.Running
import Conform.Proofs.Model.Safety
import Conform.Proofs.Model.Simulation
import Conform.Proofs.Model.Validators
import Conform.Proofs.Model.Visit
import Conform.Proofs.Model.Watching
import Conform.Proofs.Model.Written
import Conform.Proofs.Number.Digits
import Conform.Proofs.Number.Integers
import Conform.Proofs.Number.Numeral
import Conform.Proofs.Number.Rounding
import Conform.Proofs.Number.Shortest
import Conform.Proofs.Number.Units
import Conform.Proofs.Program.Acts
import Conform.Proofs.Program.Creation
import Conform.Proofs.Program.Data
import Conform.Proofs.Program.Folding
import Conform.Proofs.Program.Letters
import Conform.Proofs.Program.Locations
import Conform.Proofs.Program.Looks
import Conform.Proofs.Program.Normal
import Conform.Proofs.Program.Occurrences
import Conform.Proofs.Program.Script
import Conform.Proofs.Program.Slots
import Conform.Proofs.Program.Transforms
import Conform.Proofs.Schema.Aliases
import Conform.Proofs.Schema.Bodies
import Conform.Proofs.Schema.Calls
import Conform.Proofs.Schema.Declared
import Conform.Proofs.Schema.Decoded
import Conform.Proofs.Schema.Distinct
import Conform.Proofs.Schema.Embedding
import Conform.Proofs.Schema.Identity
import Conform.Proofs.Schema.Integers
import Conform.Proofs.Schema.Interning
import Conform.Proofs.Schema.Key
import Conform.Proofs.Schema.Lowering
import Conform.Proofs.Schema.Matching
import Conform.Proofs.Schema.Meaning
import Conform.Proofs.Schema.Positions
import Conform.Proofs.Schema.Reading
import Conform.Proofs.Schema.Renumbering
import Conform.Proofs.Schema.Same
import Conform.Proofs.Schema.Shapes
import Conform.Proofs.Schema.TypeNames
import Conform.Proofs.Schema.WellFormed
import Conform.Proofs.Text.Blank
import Conform.Proofs.Text.LineEnds
import Conform.Proofs.Text.Quoted
import Conform.Proofs.Text.Runs
import Conform.Proofs.Transform.Calendar
import Conform.Proofs.Transform.DateText
import Conform.Proofs.Transform.IntString
import Conform.Proofs.Transform.IsoDate
import Conform.Proofs.Transform.Routine
import Conform.Proofs.TypeScript.Blocks
import Conform.Proofs.TypeScript.Expressions
import Conform.Proofs.TypeScript.LineEnds
import Conform.Proofs.TypeScript.Lines
import Conform.Proofs.TypeScript.Sum
import Conform.Schema.Decode
import Conform.Schema.Document
import Conform.Schema.Expr
import Conform.Schema.Table
import Conform.Text.Blank
import Conform.Text.Escaped
import Conform.Text.Identifier
import Conform.Text.Lines
import Conform.Text.Printable
import Conform.Text.Quoted
import Conform.Text.Split
import Conform.Transform.Builtin
import Conform.Transform.Calendar
import Conform.Transform.DateText
import Conform.Value
