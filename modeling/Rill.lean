import Rill.Arithmetic
import Rill.Builtin
import Rill.Builtin.Core
import Rill.Builtin.Math
import Rill.Builtin.Sql
import Rill.Command
import Rill.Command.Options
import Rill.Console
import Rill.Database
import Rill.Database.Address
import Rill.Database.Duration
import Rill.Database.Moment
import Rill.Database.Script
import Rill.Database.Server
import Rill.Decimal.Binary
import Rill.Decimal.Layout
import Rill.Decimal.Reader
import Rill.Decimal.Shortest
import Rill.Diagnostic
import Rill.Eval
import Rill.Fault
import Rill.Files
import Rill.Files.Path
import Rill.Import
import Rill.Journal
import Rill.Journal.Level
import Rill.Kind
import Rill.Main
import Rill.Operator
import Rill.Outline
import Rill.Outline.Dump
import Rill.Outline.Json
import Rill.Outline.Scalar
import Rill.Outline.Yaml
import Rill.Real.Exponential
import Rill.Real.Logarithm
import Rill.Real.Power
import Rill.Real.Scaled
import Rill.Scope
import Rill.Session
import Rill.Settings
import Rill.Table
import Rill.Text.Base64
import Rill.Text.Bytes
import Rill.Text.Glyph
import Rill.Text.Json
import Rill.Text.Paint
import Rill.Text.Place
import Rill.Text.Printable
import Rill.Text.Quoted
import Rill.Token
import Rill.Token.Scanner
import Rill.Toml
import Rill.Toml.Document
import Rill.Toml.Scalar
import Rill.Tree
import Rill.Tree.Parser
import Rill.Tree.Printer
import Rill.Value
import Rill.Value.Inspect
import Rill.Value.Key
import Rill.World
import Rill.Proofs.Value.Parts
import Rill.Proofs.Scope.Forest
import Rill.Proofs.Scope.History
import Rill.Proofs.Scope.Coherence
import Rill.Proofs.Scope.Ownership
import Rill.Proofs.Scope.Growth
import Rill.Proofs.Scope.Writes
import Rill.Proofs.Tree.Grammar
import Rill.Proofs.Tree.Reading
import Rill.Proofs.Tree.Counting
import Rill.Proofs.Tree.Derivation
import Rill.Proofs.Tree.Effort
import Rill.Proofs.Tree.Detached
import Rill.Proofs.Outline.Decoding
import Rill.Proofs.Token.Scanner
import Rill.Proofs.Token.Lexeme
import Rill.Proofs.Table
import Rill.Proofs.Text.Glyph
import Rill.Proofs.Token.Tiling
import Rill.Proofs.Text.Place
import Rill.Proofs.Files.Places
import Rill.Proofs.Files.Names
import Rill.Proofs.Text.Plain
import Rill.Proofs.Text.Caret
import Rill.Proofs.Token.Placement
import Rill.Proofs.Token.Respelling
import Rill.Proofs.Token.Concatenation
import Rill.Proofs.Tree.Canonical
import Rill.Proofs.Tree.Printed
import Rill.Proofs.Tree.Phrase
import Rill.Proofs.Tree.Precedence
import Rill.Proofs.Tree.Rereading
import Rill.Proofs.Tree.Diagnostics
import Rill.Proofs.Tree.Relocation
import Rill.Proofs.Tree.Concatenation
import Rill.Proofs.Run.Quiet
import Rill.Proofs.Value.Association
import Rill.Proofs.Value.Data
import Rill.Proofs.Value.Inspection
import Rill.Proofs.Value.Finite
import Rill.Proofs.Run.Builtins
import Rill.Proofs.Run.Aloof
import Rill.Proofs.Run.Discipline
import Rill.Proofs.Run.Evaluation
import Rill.Proofs.Run.Watch
import Rill.Proofs.Run.Call
import Rill.Proofs.Run.Mirror
import Rill.Proofs.Run.Reach
import Rill.Proofs.Run.Bindings
import Rill.Proofs.Session.Reachable
import Rill.Proofs.Signal.Reach
import Rill.Proofs.Signal.Shelter
import Rill.Proofs.Signal.Use
import Rill.Proofs.Signal.Agreement
import Rill.Proofs.Signal.Containment
import Rill.Proofs.Import.Cache
import Rill.Proofs.Import.Stack
import Rill.Proofs.Database.Calls
import Rill.Proofs.Database.Handles
import Rill.Proofs.Database.Trace
import Rill.Proofs.Error.Abort
import Rill.Proofs.Error.Breach
import Rill.Proofs.Session.Confinement
import Rill.Proofs.Session.Acyclicity
import Rill.Proofs.Session.Observation
import Rill.Proofs.Scope.Assignment
import Rill.Proofs.Session.Concatenation
import Rill.Proofs.Session.Atomicity
import Rill.Proofs.Decimal.Zero
import Rill.Proofs.Value.Compound
import Rill.Proofs.Value.Sharing
import Rill.Proofs.Journal.Closing
import Rill.Proofs.Journal.Rotation
import Rill.Proofs.Value.Detached
import Rill.Proofs.Run.Detached
import Rill.Proofs.Run.Sources
import Rill.Proofs.Outline.Faithful
import Rill.Proofs.Number.Range
import Rill.Proofs.Number.Power
import Rill.Proofs.Decimal.Order
import Rill.Proofs.Number.Choice
