import ModuleLoader.Builtin.Os
import ModuleLoader.Builtin.Path
import ModuleLoader.Builtin.Registry
import ModuleLoader.Cache
import ModuleLoader.Config
import ModuleLoader.Error
import ModuleLoader.FileTree
import ModuleLoader.Format
import ModuleLoader.Hook.Intercept
import ModuleLoader.Hook.Stack
import ModuleLoader.Host
import ModuleLoader.Json.Basic
import ModuleLoader.Json.Document
import ModuleLoader.Json.Printer
import ModuleLoader.Json.Shape
import ModuleLoader.Legacy.Loader
import ModuleLoader.Linker.Build
import ModuleLoader.Linker.Graph
import ModuleLoader.Loader
import ModuleLoader.Number.Layout
import ModuleLoader.Number.Numeral
import ModuleLoader.Number.Shortest
import ModuleLoader.OrderedMap
import ModuleLoader.Package
import ModuleLoader.Path.Basic
import ModuleLoader.Path.Normal
import ModuleLoader.Path.Url
import ModuleLoader.Program
import ModuleLoader.Record.Basic
import ModuleLoader.Record.Status
import ModuleLoader.Resolve.RequireId
import ModuleLoader.Resolve.Specifier
import ModuleLoader.Scripted.Hooks
import ModuleLoader.Scripted.Providers
import ModuleLoader.Scripted.Run
import ModuleLoader.Scripted.Syntax
import ModuleLoader.State
import ModuleLoader.Trace
import ModuleLoader.Value.Basic
import ModuleLoader.Value.Heap
import ModuleLoader.Value.Literal
import ModuleLoader.Proofs.LoadInvariant
import ModuleLoader.Proofs.Depth
import ModuleLoader.Proofs.Path.NormalForm
import ModuleLoader.Proofs.Path.Lookup
import ModuleLoader.Proofs.Path.Place
import ModuleLoader.Proofs.Cycle
import ModuleLoader.Proofs.Steps
import ModuleLoader.Proofs.Termination
import ModuleLoader.Proofs.Growth
import ModuleLoader.Proofs.Soundness
import ModuleLoader.Proofs.FailsWithin
import ModuleLoader.Proofs.Lifecycle
import ModuleLoader.Proofs.Forest
import ModuleLoader.Proofs.KnownRecords
import ModuleLoader.Proofs.HiddenRecords
import ModuleLoader.Proofs.Unfolding
import ModuleLoader.Proofs.PostOrder
import ModuleLoader.Proofs.Scripted
import ModuleLoader.Proofs.FirstFailure
import ModuleLoader.Proofs.Partition
import ModuleLoader.Proofs.Entries
import ModuleLoader.Proofs.Ledger
import ModuleLoader.Proofs.RunRelation
import ModuleLoader.Proofs.Accounting
import ModuleLoader.Proofs.LoadedOnce
import ModuleLoader.Proofs.Unfinished
import ModuleLoader.Proofs.RunInvariant
import ModuleLoader.Proofs.InProgress
import ModuleLoader.Proofs.Settlement
import ModuleLoader.Proofs.Phases
import ModuleLoader.Proofs.ContextRuns
import ModuleLoader.Proofs.Cells
import ModuleLoader.Proofs.Bindings
import ModuleLoader.Proofs.Confined
import ModuleLoader.Proofs.Overlay
import ModuleLoader.Proofs.Isolation
import ModuleLoader.Proofs.Guards
import ModuleLoader.Proofs.HostErrors
import ModuleLoader.Proofs.Imports
import ModuleLoader.Proofs.Nesting
import ModuleLoader.Proofs.Brackets
import ModuleLoader.Proofs.Observers
import ModuleLoader.Proofs.Interception
import ModuleLoader.Proofs.Passage
import ModuleLoader.Proofs.Circles
import ModuleLoader.Proofs.Exports
import ModuleLoader.Proofs.Finished
import ModuleLoader.Proofs.Path.Candidates
import ModuleLoader.Proofs.Path.Containment
import ModuleLoader.Proofs.OneKey
import ModuleLoader.Proofs.Path.Specifiers
import ModuleLoader.Proofs.Scope
import ModuleLoader.Proofs.Unread
import ModuleLoader.Proofs.Agreement
import ModuleLoader.Proofs.CachedAnswers
import ModuleLoader.Proofs.Wrapped
import ModuleLoader.Proofs.Addressing
import ModuleLoader.Proofs.Path.Walking
import ModuleLoader.Proofs.Path.Joining
import ModuleLoader.Proofs.Abandoned
import ModuleLoader.Proofs.Kinship
import ModuleLoader.Proofs.Path.Anchors
import ModuleLoader.Proofs.Path.NormalText
import ModuleLoader.Proofs.Path.Recomposing
import ModuleLoader.Proofs.Path.Decoding
import ModuleLoader.Proofs.Identity
import ModuleLoader.Proofs.Path.Folding
import ModuleLoader.Proofs.Path.Offsets
import ModuleLoader.Proofs.Changes
