import ModuleLoader.Text.Blank
import ModuleLoader.Text.Split
import ModuleLoader.Text.WordTable
import ModuleLoader.Text.Word
import ModuleLoader.Text.Utf8
import ModuleLoader.Text.Quoted
import ModuleLoader.Decimal.Binary64
import ModuleLoader.Decimal.Shortest
import ModuleLoader.Json.Value
import ModuleLoader.Json.Fault
import ModuleLoader.Json.Parser
import ModuleLoader.Json.Printer
import ModuleLoader.Path
import ModuleLoader.PathMap
import ModuleLoader.Source.Basic
import ModuleLoader.Source.Bundle
import ModuleLoader.Source.Memory
import ModuleLoader.Source.Tree
import ModuleLoader.Source.Walk
import ModuleLoader.Specifier
import ModuleLoader.Package.Name
import ModuleLoader.Package.Target
import ModuleLoader.Package.Descriptor
import ModuleLoader.Package.Cache
import ModuleLoader.Resolve.Basic
import ModuleLoader.Resolve.Error
import ModuleLoader.Resolve.Trace
import ModuleLoader.Resolve.Search
import ModuleLoader.Resolve.Package
import ModuleLoader.Resolve.Resolver
import ModuleLoader.Transpile.Brackets
import ModuleLoader.Transpile.Binding
import ModuleLoader.Transpile.Statement
import ModuleLoader.Transpile.Emit
import ModuleLoader.Transpile.Source
import ModuleLoader.CommonJs.Exports
import ModuleLoader.CommonJs.Wrapper
import ModuleLoader.Host.Value
import ModuleLoader.Host.Heap
import ModuleLoader.Host.Snapshot
import ModuleLoader.Host.Error
import ModuleLoader.Host.Registry
import ModuleLoader.Host.State
import ModuleLoader.Host.Script
import ModuleLoader.Host.TypeScript
import ModuleLoader.Host.Load
import ModuleLoader.Host.Call
import ModuleLoader.Host.Statement
import ModuleLoader.Source.Disk
import ModuleLoader.Version
import ModuleLoader.CommandLine.Document
import ModuleLoader.CommandLine.Configuration
import ModuleLoader.CommandLine.Arguments
import ModuleLoader.CommandLine.Report
import ModuleLoader.CommandLine.Run
import ModuleLoader.Main
import ModuleLoader.Proofs.Text.Pieces
import ModuleLoader.Proofs.Path.Components
import ModuleLoader.Proofs.Path.Ancestors
import ModuleLoader.Proofs.Path.Spelling
import ModuleLoader.Proofs.Path.Normal
import ModuleLoader.Proofs.Source.Spelling
import ModuleLoader.Proofs.Source.Entries
import ModuleLoader.Proofs.Resolve.Observer
import ModuleLoader.Proofs.Resolve.Likeness
import ModuleLoader.Proofs.Resolve.Simulation
import ModuleLoader.Proofs.Resolve.PackageSimulation
import ModuleLoader.Proofs.Path.Map
import ModuleLoader.Proofs.Resolve.Memo
import ModuleLoader.Proofs.Resolve.Replay
import ModuleLoader.Proofs.Host.Machine
import ModuleLoader.Proofs.Resolve.Growth
import ModuleLoader.Proofs.Resolve.Zone
import ModuleLoader.Proofs.Resolve.Sound
import ModuleLoader.Proofs.Resolve.Normal
import ModuleLoader.Proofs.Package.Target
import ModuleLoader.Proofs.Resolve.Canonical
import ModuleLoader.Proofs.Resolve.Containment
import ModuleLoader.Proofs.Json.Grammar
import ModuleLoader.Proofs.Json.Reader
import ModuleLoader.Proofs.Json.Strings
import ModuleLoader.Proofs.Json.Numbers
import ModuleLoader.Proofs.Json.Members
import ModuleLoader.Proofs.Json.Index
import ModuleLoader.Proofs.Json.Lists
import ModuleLoader.Proofs.Json.Values
import ModuleLoader.Proofs.Host.Runs
import ModuleLoader.Proofs.Host.Effect
import ModuleLoader.Proofs.Host.Formats
import ModuleLoader.Proofs.Host.Marks
import ModuleLoader.Proofs.Host.Pins
import ModuleLoader.Proofs.Host.Restore
import ModuleLoader.Proofs.Host.Cycles
import ModuleLoader.Proofs.Host.Once
import ModuleLoader.Proofs.Text.Lines
import ModuleLoader.Proofs.Transpile.Texts
import ModuleLoader.Proofs.Transpile.OneLine
import ModuleLoader.Proofs.Transpile.Lines
import ModuleLoader.Proofs.Host.Completions
import ModuleLoader.Proofs.Host.Atomicity
import ModuleLoader.Proofs.Host.Exceptions
import ModuleLoader.Proofs.Host.Stability
import ModuleLoader.Proofs.Host.NativeEsm
import ModuleLoader.Proofs.Path.Names
import ModuleLoader.Proofs.Path.Cancelled
import ModuleLoader.Proofs.Path.Below
import ModuleLoader.Proofs.Source.Places
import ModuleLoader.Proofs.Source.Walks
import ModuleLoader.Proofs.Source.Snapshots
import ModuleLoader.Proofs.Resolve.Outcome
import ModuleLoader.Proofs.Resolve.Exports
import ModuleLoader.Proofs.Resolve.Portable
import ModuleLoader.Proofs.Resolve.Backends
import ModuleLoader.Proofs.Resolve.Root
import ModuleLoader.Proofs.Decimal.Rounding
import ModuleLoader.Proofs.Decimal.Shortest
import ModuleLoader.Proofs.Json.Printed
import ModuleLoader.Proofs.Json.RoundTrip
import ModuleLoader.Proofs.Package.Leaves
import ModuleLoader.Proofs.Package.Subpaths
import ModuleLoader.Proofs.Text.Slices
import ModuleLoader.Proofs.Package.Patterns
import ModuleLoader.Proofs.Resolve.Lookups
import ModuleLoader.Proofs.Resolve.Candidates
import ModuleLoader.Proofs.Resolve.Restriction
import ModuleLoader.Proofs.Resolve.InvalidManifests
import ModuleLoader.Proofs.Package.Names
import ModuleLoader.Proofs.Resolve.Records
import ModuleLoader.Proofs.Resolve.Tries
import ModuleLoader.Proofs.Resolve.Explained
import ModuleLoader.Proofs.Resolve.Imports
import ModuleLoader.Proofs.Text.Bytes
import ModuleLoader.Proofs.Text.Words
import ModuleLoader.Proofs.Json.Offsets
import ModuleLoader.Proofs.Json.Stops
import ModuleLoader.Proofs.Text.Trim
import ModuleLoader.Proofs.Transpile.Header
import ModuleLoader.Proofs.Transpile.Nesting
import ModuleLoader.Proofs.Transpile.Closed
import ModuleLoader.Proofs.Transpile.Cuts
import ModuleLoader.Proofs.Transpile.Patterns
import ModuleLoader.Proofs.Transpile.Lists
import ModuleLoader.Proofs.Transpile.ListStatements
import ModuleLoader.Proofs.Transpile.Declarations
import ModuleLoader.Proofs.Transpile.Defaults
import ModuleLoader.Proofs.Transpile.Joined
import ModuleLoader.Proofs.Transpile.Trailing
import ModuleLoader.Proofs.Transpile.Comments
import ModuleLoader.Proofs.Transpile.CommentedStatements
import ModuleLoader.Proofs.Transpile.ListLeads
import ModuleLoader.Proofs.Transpile.CommentedLines
import ModuleLoader.Proofs.CommonJs.Scan
import ModuleLoader.Proofs.CommonJs.Assignments
import ModuleLoader.Proofs.CommonJs.Names
import ModuleLoader.Proofs.CommonJs.Bridge
import ModuleLoader.Proofs.Host.Functions
import ModuleLoader.Proofs.Host.BoundFunctions
import ModuleLoader.Proofs.Resolve.Backslashes
import ModuleLoader.Proofs.Host.SharedInstance
