import Sigil.Cfg.Graph
import Sigil.Semantic.Context

/-!
# Ownership validation

`validateOwnershipCfg` follows every enumerated path of the flattened body. A
`PathState` is what one path has done so far, `OwnershipState` what is collected
over all paths. The reports of a statement read the path state it finds.
-/

namespace Sigil

/-- What an error is about, for reporting it once a line. The source spells it
`"DoubleFree:name"` and so on. -/
inductive ReportKey where
  | doubleFree (name : String)
  | useAfterFree (name : String)
  | uninitializedLoad (name : String)
  | memoryLeak (name : String)
  | outputNotWritten (names : List String)
  deriving DecidableEq, Repr

/-- What has happened on a path. -/
structure PathState where
  freed : AList (fun _ : String => Nat) := ∅
  stored : List String := []
  allocated : List String := []
  written : List String := []

/-- What the walks have found and reported. -/
structure OwnershipState where
  errors : List SemanticError := []
  reported : List (ReportKey × Nat) := []
  allocations : AList (fun _ : String => Nat) := ∅
  notFreed : List String := []
  outputsNotWritten : List String := []

namespace OwnershipState

/-- Push an error unless its key was reported for this line. -/
def report (st : OwnershipState) (key : ReportKey) (error : SemanticError) : OwnershipState :=
  if (key, error.line) ∈ st.reported then st
  else { st with
    reported := (key, error.line) :: st.reported
    errors := st.errors ++ [error] }

/-- Report the freed variable an expression reads, looking through LOAD sources
and field bases only. -/
def checkExprUsesFreed (freed : AList fun _ : String => Nat) (line : Nat) :
    Expr → OwnershipState → OwnershipState
  | .var name, st => match freed.lookup name with
    | some freedLine => st.report (.useAfterFree name)
        ⟨.useAfterFree name freedLine, line, some "use of handle freed on this path"⟩
    | none => st
  | .load source _ _, st => checkExprUsesFreed freed line source st
  | .field base _, st => checkExprUsesFreed freed line base st
  | _, st => st

/-- Report a LOAD of a variable nothing was stored to, looking through LOAD
sources only. -/
def checkUninitializedLoad (stored : List String) (line : Nat) :
    Expr → OwnershipState → OwnershipState
  | .load source _ _, st =>
      let st := match source with
        | .var name => if name ∈ stored then st
            else st.report (.uninitializedLoad name)
              ⟨.uninitializedLoad name, line, some "LOAD without prior STORE on this path"⟩
        | _ => st
      checkUninitializedLoad stored line source st
  | _, st => st

/-- The reports of one statement on a path in state `path`. -/
def inspect (node : Node) (path : PathState) (st : OwnershipState) : OwnershipState :=
  match node with
  | .assignment line target expr =>
      let st := checkExprUsesFreed path.freed line expr st
      let st := checkUninitializedLoad path.stored line expr st
      if node.allocTarget?.isSome then
        { st with allocations := st.allocations.insert target line }
      else st
  | .free line name => match path.freed.lookup name with
    | some firstLine => st.report (.doubleFree name)
        ⟨.doubleFree name firstLine, line, some "double FREE on same execution path"⟩
    | none => st
  | .store line target _ _ _ => match path.freed.lookup target with
    | some freedLine => st.report (.useAfterFree target)
        ⟨.useAfterFree target freedLine, line, some "STORE to handle freed on this path"⟩
    | none => st
  | _ => st

end OwnershipState

/-- The arguments of a CALL statement, or of a CALL that is assigned. -/
def Node.callArgs : Node → List Expr
  | .call _ _ _ args _ => args
  | .assignment _ _ (.call _ args) => args
  | _ => []

/-- The variables passed as they are. -/
def directVars (args : List Expr) : List String :=
  args.filterMap fun
    | .var name => some name
    | _ => none

namespace PathState

/-- Credit a write if the name is an OUTPUT. -/
def writeOutput (ctx : AnalysisContext) (path : PathState) (name : String) : PathState :=
  if ctx.isOutput name then { path with written := path.written.insert name } else path

/-- What an assignment, FREE, STORE or SET does to the path. -/
def act (ctx : AnalysisContext) (node : Node) (path : PathState) : PathState :=
  match node with
  | .assignment _ target _ =>
      { path with
        freed := path.freed.erase target
        allocated := if node.allocTarget?.isSome then path.allocated.insert target
          else path.allocated }
  | .free line name =>
      if (path.freed.lookup name).isSome then path
      else { path with freed := path.freed.insert name line }
  | .store _ target _ _ _ =>
      writeOutput ctx { path with stored := path.stored.insert target } target
  | .set _ target _ => writeOutput ctx path target
  | _ => path

/-- The names after `->` of a CALL statement. -/
def redirects : Node → List String
  | .call _ _ _ _ outputs => outputs
  | _ => []

/-- What one statement does to the path: a CALL also writes the outputs it is
passed and those its result is redirected into. -/
def step (ctx : AnalysisContext) (node : Node) (path : PathState) : PathState :=
  let path := (directVars node.callArgs).foldl (writeOutput ctx) (path.act ctx node)
  (redirects node).foldl (writeOutput ctx) path

/-- A path starts with its INPUTs stored. -/
def init (ctx : AnalysisContext) : PathState where
  stored := ctx.inputs.keys

end PathState

namespace OwnershipState

/-- Inspect a statement, then let the path take it. -/
def visit (ctx : AnalysisContext) (nodes : List Node) (s : PathState × OwnershipState)
    (idx : Nat) : PathState × OwnershipState :=
  match nodes[idx]? with
  | some node => (s.1.step ctx node, s.2.inspect node s.1)
  | none => s

/-- Visit the statements of a block. -/
def visitBlock (ctx : AnalysisContext) (nodes : List Node) (cfg : CFG)
    (s : PathState × OwnershipState) (b : BlockId) : PathState × OwnershipState :=
  match cfg.blocks[b]? with
  | some block => block.statements.foldl (visit ctx nodes) s
  | none => s

/-- Collect what a finished path left unfreed and unwritten. -/
def endPath (ctx : AnalysisContext) (path : PathState) (st : OwnershipState) : OwnershipState :=
  { st with
    notFreed := path.allocated.filter (fun var => (path.freed.lookup var).isNone) ∪ st.notFreed
    outputsNotWritten := if ctx.hasGuarantee .writesOutput then
        ctx.outputs.keys.filter (· ∉ path.written) ∪ st.outputsNotWritten
      else st.outputsNotWritten }

/-- Follow one path. -/
def visitPath (ctx : AnalysisContext) (nodes : List Node) (cfg : CFG) (st : OwnershipState)
    (path : List BlockId) : OwnershipState :=
  let (final, st) := path.foldl (visitBlock ctx nodes cfg) (PathState.init ctx, st)
  st.endPath ctx final

/-- Report one allocation some path does not free, at the line it was last seen. -/
def reportLeak (st : OwnershipState) (var : String) : OwnershipState :=
  match st.allocations.lookup var with
  | some line => st.report (.memoryLeak var)
      ⟨.memoryLeak var, line, some "allocation not freed on all execution paths"⟩
  | none => st

/-- Report the allocations some path does not free. -/
def reportLeaks (st : OwnershipState) : OwnershipState :=
  st.notFreed.foldl reportLeak st

/-- Report the outputs some path does not write, in one error. -/
def reportOutputs (ctx : AnalysisContext) (st : OwnershipState) : OwnershipState :=
  if ctx.hasGuarantee .writesOutput && !st.outputsNotWritten.isEmpty then
    st.report (.outputNotWritten st.outputsNotWritten)
      ⟨.outputNotWritten st.outputsNotWritten, 0, some "output not written on all execution paths"⟩
  else st

end OwnershipState

/-- The ownership errors of a body. -/
def validateOwnershipCfg (nodes : List Node) (ctx : AnalysisContext) : List SemanticError :=
  let flat := flattenScopes nodes
  let cfg := CFG.build flat
  let st := cfg.allPaths.foldl (OwnershipState.visitPath ctx flat cfg) {}
  (st.reportLeaks.reportOutputs ctx).errors

end Sigil
