import Sigil.Cfg.Predecessors
import Sigil.Flow.Sweeps

/-!
# The planned dataflow pass

`analyzeDataFlow` is the pass kept for replacing the enumeration of paths. It recomputes the
state after every block from the states after its predecessors, sweep by sweep, until a sweep
changes nothing or a thousand have run. Sets of names are finite sets; the names of a report come
in no particular order.
-/

namespace Sigil

/-- What is known at a point of a body. -/
structure DataFlowState where
  initialized : Finset String := ∅
  freed : Finset String := ∅
  allocated : Finset String := ∅
  writtenOutputs : Finset String := ∅
  deriving DecidableEq

namespace DataFlowState

def merge (state other : DataFlowState) : DataFlowState where
  initialized := state.initialized ∩ other.initialized
  freed := state.freed ∪ other.freed
  allocated := state.allocated ∪ other.allocated
  writtenOutputs := state.writtenOutputs ∩ other.writtenOutputs

/-- The effect of a statement. -/
def applyNode (state : DataFlowState) : Node → DataFlowState
  | .assignment _ target expr =>
      { state with
        allocated := match expr with
          | .alloc .. => insert target state.allocated
          | _ => state.allocated
        initialized := insert target state.initialized }
  | .store _ target _ _ _ =>
      { state with
        initialized := insert target state.initialized
        writtenOutputs := insert target state.writtenOutputs }
  | .set _ target _ => { state with writtenOutputs := insert target state.writtenOutputs }
  | .free _ name =>
      { state with freed := insert name state.freed, allocated := state.allocated.erase name }
  | _ => state

end DataFlowState

/-- The states after the blocks visited so far. -/
abbrev BlockStates := BlockId → Option DataFlowState

/-- What the analysis reports. -/
structure DataFlowAnalysisResult where
  uninitializedReads : List String := []
  leakedAllocations : Multiset String := 0
  unwrittenOutputsPaths : List (Finset String) := []

/-- The state before a block, from those of its predecessors that have one. -/
def inputState (states : BlockStates) (block : BasicBlock) : DataFlowState :=
  if block.predecessors.isEmpty then {}
  else match block.predecessors.filterMap states with
    | [] => {}
    | state :: others => others.foldl DataFlowState.merge state

/-- The state after some statements. -/
def applyStatements (nodes : List Node) (statements : List Nat) (state : DataFlowState) :
    DataFlowState :=
  statements.foldl (fun state idx => match nodes[idx]? with
    | some node => state.applyNode node
    | none => state) state

/-- Recompute the state after a block, and whether it is another one. -/
def visitBlock (nodes : List Node) (states : BlockStates × Bool) (block : BasicBlock) :
    BlockStates × Bool :=
  let current := applyStatements nodes block.statements (inputState states.1 block)
  (Function.update states.1 block.id (some current), states.2 || states.1 block.id ≠ some current)

def sweepBlocks (cfg : CFG) (nodes : List Node) (states : BlockStates) : BlockStates × Bool :=
  cfg.blocks.foldl (visitBlock nodes) (states, false)

/-- Sweeps until one changes nothing. -/
def fixedPoint (cfg : CFG) (nodes : List Node) : Nat → BlockStates → BlockStates
  | 0, states => states
  | iterations + 1, states =>
      let (states, changed) := sweepBlocks cfg nodes states
      if changed then fixedPoint cfg nodes iterations states else states

def maxIterations : Nat := 1000

/-- What the states at the exits say. -/
def exitReport (outputs : Finset String) (states : BlockStates)
    (result : DataFlowAnalysisResult) (exit : BlockId) :
    DataFlowAnalysisResult :=
  match states exit with
  | none => result
  | some state =>
      let unwritten := outputs \ state.writtenOutputs
      { result with
        leakedAllocations := result.leakedAllocations + state.allocated.val
        unwrittenOutputsPaths :=
          if unwritten.Nonempty then result.unwrittenOutputsPaths ++
            [unwritten] else result.unwrittenOutputsPaths }

def analyzeDataFlow (cfg : CFG) (nodes : List Node) (outputs : Finset String) :
    DataFlowAnalysisResult :=
  let states := fixedPoint cfg nodes maxIterations fun b => if b = cfg.entry then some {} else none
  cfg.exits.foldl (exitReport outputs states) {}

/-- The pass reports the output at some exit. -/
def DataFlowAnalysisResult.Reports (result : DataFlowAnalysisResult) (output : String) : Prop :=
  ∃ unwritten ∈ result.unwrittenOutputsPaths, output ∈ unwritten

instance (result : DataFlowAnalysisResult) (output : String) : Decidable (result.Reports output) :=
  inferInstanceAs (Decidable (∃ unwritten ∈ result.unwrittenOutputsPaths, output ∈ unwritten))

/-- STORE and SET write the name they have as target. -/
def Node.writesTo (output : String) : Node → Bool
  | .store _ target _ _ _ | .set _ target _ => target = output
  | _ => false

/-- A block that writes a name. -/
def CFG.blockWrites (cfg : CFG) (nodes : List Node) (output : String) (b : BlockId) : Bool :=
  match cfg.blocks[b]? with
  | some block => block.statements.any fun idx => (nodes[idx]?).any (Node.writesTo output)
  | none => false

end Sigil
