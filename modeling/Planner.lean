import Planner.Binary64.Basic
import Planner.Binary64.Shortest
import Planner.ColumnType
import Planner.Command.Arguments
import Planner.Command.Run
import Planner.Config
import Planner.Counting
import Planner.Data.Decoder
import Planner.Data.Form
import Planner.Data.Tree
import Planner.Data.Word
import Planner.Expr.Basic
import Planner.Expr.Coding
import Planner.Expr.Typing
import Planner.Files
import Planner.Flow.Chaining
import Planner.Flow.DeadCode
import Planner.Flow.Graph
import Planner.Flow.Liveness
import Planner.Flow.Structure
import Planner.Json.Number
import Planner.Json.Printer
import Planner.Json.Reader
import Planner.Logged
import Planner.Main
import Planner.Plan.Basic
import Planner.Plan.Cells
import Planner.Plan.Coding
import Planner.Plan.Error
import Planner.Plan.Explain
import Planner.Plan.Fixpoint
import Planner.Plan.Graph
import Planner.Plan.Rule
import Planner.Plan.Scheme
import Planner.Plan.Substitution
import Planner.Plan.Traversal
import Planner.Program.Basic
import Planner.Program.Coding
import Planner.Program.Lowering
import Planner.RelationKey
import Planner.Resolve
import Planner.Scheme
import Planner.SortedSet
import Planner.SymbolSource
import Planner.Text.Blank
import Planner.Text.Capital
import Planner.Text.Printable
import Planner.Text.Quoted
import Planner.Yaml.Cursor
import Planner.Yaml.Event
import Planner.Yaml.Lexer
import Planner.Yaml.Printer
import Planner.Yaml.Reader
import Planner.Yaml.Scalar
import Planner.Yaml.Token
import Planner.Proofs.Plan.Reads
import Planner.Proofs.Plan.Meaning
import Planner.Proofs.Plan.Schemes
import Planner.Proofs.Plan.Equality
import Planner.Proofs.Plan.Copies
import Planner.Proofs.Data.Reading
import Planner.Proofs.Data.Values
import Planner.Proofs.RelationKey
import Planner.Proofs.Flow.Built
import Planner.Proofs.Flow.Liveness
import Planner.Proofs.Flow.Code
import Planner.Proofs.Flow.Rewriting
import Planner.Proofs.Flow.Passes
import Planner.Proofs.Flow.Threaded
import Planner.Proofs.Flow.Saturation
import Planner.Proofs.Flow.Simulation
import Planner.Proofs.Flow.Preservation
import Planner.Proofs.Program.Lowered
import Planner.Proofs.Program.Binding
import Planner.Proofs.Program.Structure
import Planner.Proofs.Program.Preservation
import Planner.Proofs.Program.Confluence
import Planner.Proofs.Program.Reaching
import Planner.Proofs.Program.Typing
import Planner.Proofs.Flow.History
import Planner.Proofs.Program.Annotations
import Planner.Proofs.Program.Assigned
import Planner.Proofs.Flow.Renumbered
import Planner.Proofs.Program.Unread
import Planner.Proofs.Flow.Outline
import Planner.Proofs.Flow.Nesting
import Planner.Proofs.Expr.Coding
import Planner.Proofs.Plan.Coding
import Planner.Proofs.Program.Coding
import Planner.Proofs.Flow.Convergence
import Planner.Proofs.Flow.Elimination
import Planner.Proofs.Expr.Typing
import Planner.Proofs.Plan.Rebinding
import Planner.Proofs.Program.Convergence
import Planner.Proofs.Plan.Substitution
import Planner.Proofs.Plan.Equijoin
import Planner.Proofs.Plan.Grouping
import Planner.Proofs.Plan.Firings
import Planner.Proofs.Plan.Rules
import Planner.Proofs.Json.Keys
import Planner.Proofs.Resolve
import Planner.Proofs.Plan.Graph
import Planner.Proofs.Plan.Signs
import Planner.Proofs.Plan.Traversal
import Planner.Proofs.Plan.Listing
import Planner.Proofs.Plan.Walks
