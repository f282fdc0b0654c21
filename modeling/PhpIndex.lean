import PhpIndex.Bytes
import PhpIndex.Command.Line
import PhpIndex.Command.Outcome
import PhpIndex.Command.Run
import PhpIndex.Discovery.Files
import PhpIndex.Discovery.Glob
import PhpIndex.Discovery.GlobText
import PhpIndex.Discovery.IgnoreRules
import PhpIndex.Disk.Basic
import PhpIndex.Document.Basic
import PhpIndex.Document.Position
import PhpIndex.Extract.Atom
import PhpIndex.Extract.Call
import PhpIndex.Extract.Callable
import PhpIndex.Extract.ClassBody
import PhpIndex.Extract.Construct
import PhpIndex.Extract.DocComment
import PhpIndex.Extract.Expression
import PhpIndex.Extract.Import
import PhpIndex.Extract.Item
import PhpIndex.Extract.Member
import PhpIndex.Extract.State
import PhpIndex.Extract.Walk
import PhpIndex.Index.Basic
import PhpIndex.Index.Completions
import PhpIndex.Index.Tables
import PhpIndex.Index.Ranges
import PhpIndex.Index.Schema
import PhpIndex.Index.Words
import PhpIndex.Json.Basic
import PhpIndex.Json.Document
import PhpIndex.Json.Lookup
import PhpIndex.Json.Model
import PhpIndex.Json.Settings
import PhpIndex.Lookup.Ancestry
import PhpIndex.Lookup.Completion
import PhpIndex.Lookup.Context
import PhpIndex.Lookup.Definition
import PhpIndex.Lookup.Help
import PhpIndex.Main
import PhpIndex.Name.Imports
import PhpIndex.Name.TypeName
import PhpIndex.Name.TypeUnion
import PhpIndex.OrderedMap
import PhpIndex.Proofs.Extract.Constructs
import PhpIndex.Proofs.Extract.Expressions
import PhpIndex.Proofs.Extract.Operands
import PhpIndex.Proofs.Extract.Parts
import PhpIndex.Proofs.Extract.Sound
import PhpIndex.Proofs.Extract.Walk
import PhpIndex.Proofs.Index.Convergence
import PhpIndex.Proofs.Index.History
import PhpIndex.Proofs.Index.Layout
import PhpIndex.Proofs.Index.Lookup
import PhpIndex.Proofs.Index.Search
import PhpIndex.Proofs.Index.Version
import PhpIndex.Proofs.Index.Words
import PhpIndex.Proofs.Name.Normal
import PhpIndex.Proofs.OrderedMap
import PhpIndex.Proofs.Record.NormalForm
import PhpIndex.Proofs.Record.ReadBack
import PhpIndex.Proofs.Record.RoundTrip
import PhpIndex.Proofs.Store.Keys
import PhpIndex.Proofs.Store.Queries
import PhpIndex.Proofs.Store.Rows
import PhpIndex.Proofs.Symbol.Candidates
import PhpIndex.Proofs.Symbol.Normal
import PhpIndex.Record.Document
import PhpIndex.Record.Error
import PhpIndex.Record.Format
import PhpIndex.Record.Key
import PhpIndex.Record.Reader
import PhpIndex.Record.Symbol
import PhpIndex.Record.Writer
import PhpIndex.Settings.Basic
import PhpIndex.Settings.Environment
import PhpIndex.Settings.Layers
import PhpIndex.Settings.Text
import PhpIndex.Settings.Value
import PhpIndex.Source.Range
import PhpIndex.Source.SyntaxTree
import PhpIndex.Source.TreeText
import PhpIndex.Store.Basic
import PhpIndex.Store.Error
import PhpIndex.Store.Lz4
import PhpIndex.Store.Query
import PhpIndex.Store.Rows
import PhpIndex.Store.Snapshot
import PhpIndex.Store.Table
import PhpIndex.Symbol.Basic
import PhpIndex.Symbol.Modifiers
import PhpIndex.Symbol.Reference
import PhpIndex.Symbol.Table
import PhpIndex.Symbol.VariableScope
import PhpIndex.Text.CaseIgnorable
import PhpIndex.Text.CodePoints
import PhpIndex.Text.Cut
import PhpIndex.Text.LetterCase
import PhpIndex.Text.Lowering
import PhpIndex.Text.Reader
import PhpIndex.Text.Sha256
import PhpIndex.Text.WholeNumber
import PhpIndex.Toml.Document
import PhpIndex.Toml.Number
import PhpIndex.Toml.Printer
import PhpIndex.Toml.Table
import PhpIndex.Toml.Text
import PhpIndex.Workspace.Basic
import PhpIndex.Workspace.Error
import PhpIndex.Workspace.Indexing
import PhpIndex.Workspace.Locks
import PhpIndex.Workspace.Overlay
import PhpIndex.Workspace.Questions
import PhpIndex.Proofs.Index.Ranges
import PhpIndex.Proofs.Index.Positions
import PhpIndex.Proofs.Record.Fixed
import PhpIndex.Proofs.Index.Concurrency
import PhpIndex.Proofs.Workspace.Overlay
import PhpIndex.Proofs.Lookup.Alike
import PhpIndex.Proofs.Index.Contents
import PhpIndex.Proofs.Lookup.Context
import PhpIndex.Proofs.Workspace.Sources
import PhpIndex.Proofs.Workspace.Opening
import PhpIndex.Proofs.Index.Declarations
import PhpIndex.Proofs.Workspace.Scopes
import PhpIndex.Proofs.Workspace.Buffers
import PhpIndex.Proofs.Workspace.Syncs
import PhpIndex.Proofs.Store.TupleOrder
import PhpIndex.Proofs.Lookup.Limits
import PhpIndex.Proofs.Workspace.LimitedSearch
import PhpIndex.Proofs.Extract.Balance
import PhpIndex.Proofs.Lookup.TopLevel
import PhpIndex.Proofs.Extract.Members
import PhpIndex.Proofs.Extract.Discipline
import PhpIndex.Proofs.Extract.Typing
import PhpIndex.Proofs.Extract.Disciplined
import PhpIndex.Proofs.Extract.Resolved
import PhpIndex.Proofs.Name.BareWord
import PhpIndex.Proofs.Extract.Relative
import PhpIndex.Proofs.Record.Delimiting
import PhpIndex.Proofs.Text.Lossy
import PhpIndex.Proofs.Index.Locality
import PhpIndex.Proofs.Index.Filing
import PhpIndex.Proofs.Workspace.Directories
import PhpIndex.Proofs.Workspace.Requests
import PhpIndex.Proofs.Workspace.Runs
import PhpIndex.Proofs.Workspace.Schedules
import PhpIndex.Proofs.Workspace.Reruns
import PhpIndex.Proofs.Store.Snapshots
import PhpIndex.Proofs.Store.Saving
import PhpIndex.Proofs.Index.Atomicity
import PhpIndex.Proofs.Record.Unchanged
import PhpIndex.Proofs.Name.Canonical
import PhpIndex.Proofs.Extract.Canonical
import PhpIndex.Proofs.Lookup.BreadthFirst
import PhpIndex.Proofs.Workspace.Ancestors
import PhpIndex.Proofs.Name.ShortName
import PhpIndex.Proofs.Extract.Unions
import PhpIndex.Proofs.Workspace.Inference
import PhpIndex.Proofs.Workspace.Completion
import PhpIndex.Proofs.Document.Columns
import PhpIndex.Proofs.Lookup.Listing
import PhpIndex.Proofs.Workspace.Closing
import PhpIndex.Proofs.Extract.Inside
import PhpIndex.Proofs.Extract.Nesting
import PhpIndex.Proofs.Text.Beginnings
import PhpIndex.Proofs.Index.Beginnings
import PhpIndex.Proofs.Extract.Tracking
import PhpIndex.Proofs.Name.LastSegment
import PhpIndex.Proofs.Extract.Written
import PhpIndex.Proofs.Workspace.TypedNames
import PhpIndex.Proofs.Extract.Named
import PhpIndex.Proofs.Extract.Enclosing
import PhpIndex.Proofs.Extract.Captures
import PhpIndex.Proofs.Record.KeyReading
import PhpIndex.Proofs.Index.WordCuts
import PhpIndex.Proofs.Workspace.Locking
import PhpIndex.Proofs.Disk.Canonical
import PhpIndex.Proofs.Workspace.Spellings
import PhpIndex.Proofs.Command.Symbols
import PhpIndex.Proofs.Store.Visits
