import Sigil.Flow.Walk
import Sigil.Flow.Search
import Sigil.Flow.Trace
import Sigil.Flow.Returns
import Sigil.Flow.Abstraction
import Sigil.Flow.Elimination
import Sigil.Flow.Closure
import Sigil.Flow.Framing
import Sigil.Flow.PostOrder
import Sigil.Ast
import Sigil.Cfg.Graph
import Sigil.Cfg.Control
import Sigil.Cfg.Blocks
import Sigil.Cfg.Connect
import Sigil.Cfg.Paths
import Sigil.Cfg.Executions
import Sigil.Semantic.Types
import Sigil.Semantic.Context
import Sigil.Semantic.Ownership
import Sigil.Semantic.PathState
import Sigil.Semantic.Reports
import Sigil.Semantic.WritesOutput
import Sigil.Semantic.Lifetime
import Sigil.Semantic.Initialization
import Sigil.Semantic.Leaks
import Sigil.ContractHash
import Sigil.Lexer
import Sigil.Parser
import Sigil.Preimage
import Sigil.Semantic.Infer
import Sigil.Semantic.Validate
import Sigil.Semantic.Roles
import Sigil.Semantic.Analyze
import Sigil.Semantic.Checked
import Sigil.Semantic.Accepted
import Sigil.Semantic.Bounds
import Sigil.Codegen.Expr
import Sigil.Codegen.Node
import Sigil.Codegen.Form
import Sigil.Codegen.Function
import Sigil.Codegen.Steps
import Sigil.Codegen.Emits
import Sigil.Codegen.Grows
import Sigil.Codegen.Appends
import Sigil.Codegen.Spawn
import Sigil.Codegen.Arguments
import Sigil.Codegen.Sketch
import Sigil.Codegen.Outline
import Sigil.Codegen.Drafts
import Sigil.Reference
import Sigil.Semantic.Separation
import Sigil.Semantic.Sharing
import Sigil.Semantic.InOrder
import Sigil.Semantic.Assigned
import Sigil.Semantic.Effects
import Sigil.Semantic.Purity
import Sigil.Codegen.Value
import Sigil.Codegen.Builder
import Sigil.Codegen.AllocSize
import Sigil.Codegen.Callees
import Sigil.Graph.Project
import Sigil.Graph.Validate
import Sigil.Graph.Sound
import Sigil.Driver.Load
import Sigil.Driver.Build
import Sigil.Driver.Compiled
import Sigil.Driver.Analyzed
import Sigil.Driver.Symbols
import Sigil.Driver.Contracts
import Sigil.Driver.Purity
import Sigil.Driver.Calls
import Sigil.Driver.Cache
import Sigil.Driver.Reuse
import Sigil.Driver.Closure
import Sigil.Runtime.Wakeups
import Sigil.Runtime.Receive
import Sigil.Runtime.ScopeCode
import Sigil.Runtime.Execution
import Sigil.Runtime.Shutdown
import Sigil.Stdlib.MapRuns
import Sigil.Parser.Scopes
import Sigil.Cfg.Terminates
import Sigil.Cfg.Planned
import Sigil.Codegen.BoundsCheck
import Sigil.Codegen.AccessWidth
import Sigil.Parser.Pins
import Sigil.Parser.Clauses
import Sigil.Parser.Expressions
import Sigil.Cfg.Scopes
import Sigil.Semantic.ScopeFrees
import Sigil.Graph.Gaps
import Sigil.Stdlib.Hex
import Sigil.Stdlib.Concat
import Sigil.Stdlib.Compare
import Sigil.Stdlib.Crc32
import Sigil.Stdlib.Address
import Sigil.Stdlib.Trim
import Sigil.Stdlib.Substring
import Sigil.Stdlib.Find
import Sigil.Stdlib.Replace
import Sigil.Stdlib.Split
import Sigil.Stdlib.FormatTime
import Sigil.Stdlib.Decimal
import Sigil.Stdlib.Base64Runs
import Sigil.Stdlib.Sha256Words
import Sigil.Stdlib.Sha256Runs
import Sigil.Parser.Description
import Sigil.Driver.Rewrite
import Sigil.Driver.DepsHash
import Sigil.Stdlib.JsonParse
import Sigil.Lexer.Spans
import Sigil.Codegen.StraightLine
import Sigil.Stdlib.Array
import Sigil.Driver.Registry
import Sigil.Driver.Incremental
import Sigil.Codegen.Branches
import Sigil.Codegen.Loops
import Sigil.Codegen.Creation
