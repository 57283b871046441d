import TreeMachine.Arena.Basic
import TreeMachine.Arena.Living
import TreeMachine.Code.Instr
import TreeMachine.Code.Listing
import TreeMachine.Code.Module
import TreeMachine.Code.Run
import TreeMachine.Collect.Collect
import TreeMachine.Collect.Mark
import TreeMachine.Compile.Control
import TreeMachine.Compile.Error
import TreeMachine.Compile.Generate
import TreeMachine.Compile.Generator
import TreeMachine.Compile.Lifetime
import TreeMachine.Console.Flags
import TreeMachine.Console.Lines
import TreeMachine.Console.Repl
import TreeMachine.Console.Run
import TreeMachine.Dict
import TreeMachine.Engine
import TreeMachine.Fault
import TreeMachine.Files.Basic
import TreeMachine.Files.Disk
import TreeMachine.Files.Path
import TreeMachine.Heap
import TreeMachine.Image
import TreeMachine.Kind
import TreeMachine.Machine
import TreeMachine.Main
import TreeMachine.Node.Basic
import TreeMachine.Node.Store
import TreeMachine.Pool
import TreeMachine.Proofs.Arena.Access
import TreeMachine.Proofs.Arena.Allocation
import TreeMachine.Proofs.Arena.BestFit
import TreeMachine.Proofs.Arena.Complement
import TreeMachine.Proofs.Arena.Growth
import TreeMachine.Proofs.Arena.Ledger
import TreeMachine.Proofs.Arena.Words
import TreeMachine.Proofs.Code.Addresses
import TreeMachine.Proofs.Code.Bounds
import TreeMachine.Proofs.Code.Branching
import TreeMachine.Proofs.Code.Builder
import TreeMachine.Proofs.Code.Calls
import TreeMachine.Proofs.Code.Construction
import TreeMachine.Proofs.Code.Frame
import TreeMachine.Proofs.Code.Indirect
import TreeMachine.Proofs.Code.Isolation
import TreeMachine.Proofs.Code.Jumps
import TreeMachine.Proofs.Code.Keeping
import TreeMachine.Proofs.Code.Paths
import TreeMachine.Proofs.Code.Programs
import TreeMachine.Proofs.Code.Slots
import TreeMachine.Proofs.Code.Stepping
import TreeMachine.Proofs.Code.Underway
import TreeMachine.Proofs.Collect.Depth
import TreeMachine.Proofs.Collect.Exact
import TreeMachine.Proofs.Collect.Finding
import TreeMachine.Proofs.Collect.Listing
import TreeMachine.Proofs.Collect.Marking
import TreeMachine.Proofs.Collect.Order
import TreeMachine.Proofs.Collect.Orderly
import TreeMachine.Proofs.Collect.Phases
import TreeMachine.Proofs.Collect.Reach
import TreeMachine.Proofs.Collect.Regions
import TreeMachine.Proofs.Collect.Search
import TreeMachine.Proofs.Collect.Sweep
import TreeMachine.Proofs.Collect.Traversal
import TreeMachine.Proofs.Compile.Arithmetic
import TreeMachine.Proofs.Compile.Blocks
import TreeMachine.Proofs.Compile.Choices
import TreeMachine.Proofs.Compile.Cutback
import TreeMachine.Proofs.Compile.Deliver
import TreeMachine.Proofs.Compile.Descent
import TreeMachine.Proofs.Compile.Discipline
import TreeMachine.Proofs.Compile.Ending
import TreeMachine.Proofs.Compile.Evaluation
import TreeMachine.Proofs.Compile.Expr
import TreeMachine.Proofs.Compile.Flow
import TreeMachine.Proofs.Compile.Halves
import TreeMachine.Proofs.Compile.Operations
import TreeMachine.Proofs.Compile.Recording
import TreeMachine.Proofs.Compile.References
import TreeMachine.Proofs.Compile.Root
import TreeMachine.Proofs.Compile.Shadow
import TreeMachine.Proofs.Compile.Site
import TreeMachine.Proofs.Compile.State
import TreeMachine.Proofs.Compile.Steady
import TreeMachine.Proofs.Compile.Trees
import TreeMachine.Proofs.Compile.WellFormed
import TreeMachine.Proofs.Console.Waiting
import TreeMachine.Proofs.Loop.Evaluation
import TreeMachine.Proofs.Loop.Generation
import TreeMachine.Proofs.Loop.Passes
import TreeMachine.Proofs.Loop.Program
import TreeMachine.Proofs.Loop.Statements
import TreeMachine.Proofs.Modules.Compiling
import TreeMachine.Proofs.Modules.History
import TreeMachine.Proofs.Modules.Loads
import TreeMachine.Proofs.Modules.Running
import TreeMachine.Proofs.Node.Calls
import TreeMachine.Proofs.Node.Cells
import TreeMachine.Proofs.Node.Closed
import TreeMachine.Proofs.Node.Entries
import TreeMachine.Proofs.Node.Inventory
import TreeMachine.Proofs.Node.Making
import TreeMachine.Proofs.Node.Pieces
import TreeMachine.Proofs.Node.Populating
import TreeMachine.Proofs.Node.Reading
import TreeMachine.Proofs.Node.Records
import TreeMachine.Proofs.Node.Stocking
import TreeMachine.Proofs.Outcome
import TreeMachine.Proofs.Pool.Directory
import TreeMachine.Proofs.Pool.Slots
import TreeMachine.Proofs.Source.Barren
import TreeMachine.Proofs.Source.Characters
import TreeMachine.Proofs.Source.Counting
import TreeMachine.Proofs.Source.Coverage
import TreeMachine.Proofs.Source.Defining
import TreeMachine.Proofs.Source.Draft
import TreeMachine.Proofs.Source.Extents
import TreeMachine.Proofs.Source.Following
import TreeMachine.Proofs.Source.Forest
import TreeMachine.Proofs.Source.Forms
import TreeMachine.Proofs.Source.Graphs
import TreeMachine.Proofs.Source.Lexemes
import TreeMachine.Proofs.Source.Lines
import TreeMachine.Proofs.Source.Nesting
import TreeMachine.Proofs.Source.Openers
import TreeMachine.Proofs.Source.Positions
import TreeMachine.Proofs.Source.Printed
import TreeMachine.Proofs.Source.Printing
import TreeMachine.Proofs.Source.Rereading
import TreeMachine.Proofs.Source.Roundtrip
import TreeMachine.Proofs.Source.Safety
import TreeMachine.Proofs.Source.Signs
import TreeMachine.Proofs.Source.Writing
import TreeMachine.Proofs.Termination.Arrangement
import TreeMachine.Proofs.Termination.Ending
import TreeMachine.Proofs.Termination.Layout
import TreeMachine.Proofs.Termination.Simulation
import TreeMachine.Proofs.Termination.Tidy
import TreeMachine.Proofs.Termination.Watching
import TreeMachine.Proofs.Types.Adding
import TreeMachine.Proofs.Types.Canonical
import TreeMachine.Proofs.Types.Concatenation
import TreeMachine.Proofs.Types.Fitting
import TreeMachine.Proofs.Types.History
import TreeMachine.Proofs.Types.Integers
import TreeMachine.Proofs.Types.Interning
import TreeMachine.Proofs.Types.Joining
import TreeMachine.Proofs.Types.Normal
import TreeMachine.Proofs.Types.Order
import TreeMachine.Proofs.Types.Reading
import TreeMachine.Proofs.Types.Rebuilding
import TreeMachine.Proofs.Types.Record
import TreeMachine.Proofs.Types.Scalars
import TreeMachine.Proofs.Types.Shape
import TreeMachine.Random
import TreeMachine.Settings.Basic
import TreeMachine.Settings.Duration
import TreeMachine.Settings.Environment
import TreeMachine.Settings.Load
import TreeMachine.Snapshot.Cbor
import TreeMachine.Snapshot.Header
import TreeMachine.Snapshot.Restore
import TreeMachine.Snapshot.Trailer
import TreeMachine.Source.Lexer
import TreeMachine.Source.Printer
import TreeMachine.Source.Reader
import TreeMachine.Source.Token
import TreeMachine.Tag
import TreeMachine.Text.Blank
import TreeMachine.Text.Numeral
import TreeMachine.Text.Printable
import TreeMachine.Text.Quoted
import TreeMachine.Text.Utf8
import TreeMachine.Timer
import TreeMachine.Toml.Document
import TreeMachine.Toml.Quoted
import TreeMachine.Toml.Scalar
import TreeMachine.Toml.Statement
import TreeMachine.Types.Basic
import TreeMachine.Types.Intern
import TreeMachine.Types.Rebuild
