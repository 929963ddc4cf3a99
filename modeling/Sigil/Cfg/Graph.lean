import Sigil.Ast
import Sigil.Flow.Search

/-!
# Control flow graph

`CFG.build` cuts a flat statement list into basic blocks and connects them by
label, `CFG.allPaths` enumerates the paths to an exit that repeat no block, and
`CFG.allPathsTerminate` asks whether every reachable block can reach an exit.
`flattenScopes` first inlines SCOPE bodies, followed by the frees of END_SCOPE.
-/

namespace Sigil

abbrev BlockId := Nat

/-- How a basic block ends. -/
inductive Terminator where
  | fallthrough
  | jump (target : String)
  | branch (trueLabel falseLabel : String)
  | return
  deriving DecidableEq, Repr

/-- Statements, as indices into the list the graph is built from, with one entry
and one exit. -/
structure BasicBlock where
  id : BlockId := 0
  statements : List Nat := []
  label : Option String := none
  successors : List BlockId := []
  predecessors : List BlockId := []
  terminator : Terminator := .fallthrough
  deriving DecidableEq, Repr

/-- A control flow graph: its blocks and where it begins. -/
structure CFG where
  blocks : List BasicBlock
  entry : BlockId
  exits : List BlockId
  labelToBlock : AList fun _ : String => BlockId

/-- The target of an `x = ALLOC ...` statement. -/
def Node.allocTarget? : Node → Option String
  | .assignment _ target (.alloc _ _ _) => some target
  | _ => none

/-- The name a `FREE` statement frees. -/
def Node.freed? : Node → Option String
  | .free _ name => some name
  | _ => none

/-- The handles END_SCOPE frees: those the body allocates at its top level and
does not free there itself. -/
def scopedAllocs (inner : List Node) : List String :=
  (inner.filterMap Node.allocTarget?).filter fun target =>
    target ∉ inner.filterMap Node.freed?

mutual

/-- Inline SCOPE bodies, each followed by a `FREE` for every handle END_SCOPE
releases, last allocated first. -/
def flattenScopes : List Node → List Node
  | [] => []
  | node :: rest => flattenScope node ++ flattenScopes rest

/-- What one statement contributes to `flattenScopes`. -/
def flattenScope : Node → List Node
  | .scope line inner =>
      flattenScopes inner ++ (scopedAllocs inner).reverse.map (Node.free line)
  | node => [node]

end

/-- Builder state: finished blocks, the block being filled, and the block each
label starts. -/
structure CFGBuilder where
  blocks : List BasicBlock := []
  labelToBlock : AList fun _ : String => BlockId := ∅
  currentBlock : BasicBlock := {}
  nextId : BlockId := 0

namespace CFGBuilder

/-- Close the current block with a terminator and start an empty one. -/
def finishBlock (builder : CFGBuilder) (terminator : Terminator) : CFGBuilder where
  blocks := builder.blocks ++
    [{ builder.currentBlock with id := builder.nextId, terminator := terminator }]
  labelToBlock := match builder.currentBlock.label with
    | some label => builder.labelToBlock.insert label builder.nextId
    | none => builder.labelToBlock
  currentBlock := {}
  nextId := builder.nextId + 1

/-- Append a statement to the current block. -/
def push (builder : CFGBuilder) (idx : Nat) : CFGBuilder :=
  { builder with currentBlock :=
      { builder.currentBlock with statements := builder.currentBlock.statements ++ [idx] } }

/-- Start a block at a label, closing the current one if it has statements. -/
def startLabel (builder : CFGBuilder) (name : String) : CFGBuilder :=
  let builder := if builder.currentBlock.statements.isEmpty then builder
    else builder.finishBlock .fallthrough
  { builder with
    currentBlock := { builder.currentBlock with label := some name }
    labelToBlock := builder.labelToBlock.insert name builder.nextId }

/-- One statement of the first pass. -/
def visit (builder : CFGBuilder) (idx : Nat) : Node → CFGBuilder
  | .label _ name => (builder.startLabel name).push idx
  | .jump _ target => (builder.push idx).finishBlock (.jump target)
  | .branch _ _ trueLabel falseLabel =>
      (builder.push idx).finishBlock (.branch trueLabel falseLabel)
  | _ => builder.push idx

/-- Visit the statements from index `idx` on. -/
def visitFrom (builder : CFGBuilder) (idx : Nat) : List Node → CFGBuilder
  | [] => builder
  | node :: rest => (builder.visit idx node).visitFrom (idx + 1) rest

/-- Identify labels and cut the list into blocks. -/
def firstPass (nodes : List Node) : CFGBuilder :=
  let builder := visitFrom {} 0 nodes
  if !builder.currentBlock.statements.isEmpty || builder.blocks.isEmpty then
    builder.finishBlock .return
  else builder

/-- The blocks a terminator leads to. -/
def targets (labelToBlock : AList fun _ : String => BlockId) (blocks : List BasicBlock)
    (i : Nat) : Terminator → List BlockId
  | .fallthrough => if i + 1 < blocks.length then
      ((blocks[i + 1]?).map BasicBlock.id).toList else []
  | .jump target => (labelToBlock.lookup target).toList
  | .branch trueLabel falseLabel =>
      (labelToBlock.lookup trueLabel).toList ++ (labelToBlock.lookup falseLabel).toList
  | .return => []

/-- Record an edge at both of its ends. -/
def connect (i : Nat) (source : BlockId) (blocks : List BasicBlock) (target : BlockId) :
    List BasicBlock :=
  (blocks.modify i fun b => { b with successors := b.successors ++ [target] }).modify target
    fun b => { b with predecessors := b.predecessors ++ [source] }

/-- Connect one block to the blocks its terminator leads to. -/
def connectBlock (labelToBlock : AList fun _ : String => BlockId) (blocks : List BasicBlock)
    (i : Nat) : List BasicBlock :=
  match blocks[i]? with
  | some block =>
      (targets labelToBlock blocks i block.terminator).foldl (connect i block.id) blocks
  | none => blocks

/-- Connect the blocks based on their terminators. -/
def secondPass (builder : CFGBuilder) : List BasicBlock :=
  (List.range builder.blocks.length).foldl (connectBlock builder.labelToBlock) builder.blocks

end CFGBuilder

/-- A block at which a path ends. -/
def BasicBlock.isExit (block : BasicBlock) : Bool :=
  block.successors.isEmpty || block.terminator = .return

namespace CFG

/-- Build the graph of a flat statement list. -/
def build (nodes : List Node) : CFG :=
  let builder := CFGBuilder.firstPass nodes
  let blocks := builder.secondPass
  { blocks := blocks
    entry := 0
    exits := (blocks.filter BasicBlock.isExit).map BasicBlock.id
    labelToBlock := builder.labelToBlock }

/-- The successors of a block id. -/
def succ (cfg : CFG) (b : BlockId) : List BlockId :=
  match cfg.blocks[b]? with
  | some block => block.successors
  | none => []

/-- Whether paths end at a block id. -/
def isExit (cfg : CFG) (b : BlockId) : Bool :=
  match cfg.blocks[b]? with
  | some block => block.isExit
  | none => true

/-- The largest number of successors of a block. -/
def degree (cfg : CFG) : Nat :=
  (cfg.blocks.map fun block => block.successors.length).foldr max 0

/-- Pops that always suffice to enumerate the paths. -/
def pathFuel (cfg : CFG) : Nat :=
  Flow.popBound cfg.degree cfg.blocks.length + 1

/-- All paths from the entry to an exit that repeat no block, found by popping
`(block, path, visited)` frames from a stack. -/
def allPaths (cfg : CFG) : List (List BlockId) :=
  (Flow.enumerate cfg.succ cfg.isExit cfg.pathFuel [⟨cfg.entry, [cfg.entry], []⟩] []).getD []

/-- Indices of the statements on a path. -/
def statementsOnPath (cfg : CFG) (path : List BlockId) : List Nat :=
  path.flatMap fun b => match cfg.blocks[b]? with
    | some block => block.statements
    | none => []

/-- One round of the forward search: pop blocks until the stack is empty. -/
def reachableLoop (cfg : CFG) : Nat → List BlockId → List BlockId → List BlockId
  | 0, _, reachable => reachable
  | _ + 1, [], reachable => reachable
  | fuel + 1, b :: stack, reachable =>
      if b ∈ reachable then cfg.reachableLoop fuel stack reachable
      else cfg.reachableLoop fuel ((cfg.succ b).reverse ++ stack) (b :: reachable)

/-- One round of the backward fixpoint: add, in block order, every block with a
successor that can exit. -/
def canExitRound (cfg : CFG) (canExit : List BlockId) : List BlockId :=
  cfg.blocks.foldl (fun canExit block =>
    if block.id ∈ canExit then canExit
    else if block.successors.any (· ∈ canExit) then block.id :: canExit
    else canExit) canExit

/-- Repeat rounds until one changes nothing. -/
def canExitLoop (cfg : CFG) : Nat → List BlockId → List BlockId
  | 0, canExit => canExit
  | fuel + 1, canExit =>
      let next := cfg.canExitRound canExit
      if next.length = canExit.length then canExit else cfg.canExitLoop fuel next

/-- Every block reachable from the entry can reach an exit block. The fuel covers
one push for each edge and one changing round for each block. -/
def allPathsTerminate (cfg : CFG) : Bool :=
  let edges := (cfg.blocks.map fun block => block.successors.length).sum
  let reachable := cfg.reachableLoop (edges + 2) [cfg.entry] []
  let canExit := cfg.canExitLoop (cfg.blocks.length + 1) cfg.exits
  reachable.all (· ∈ canExit)

end CFG

end Sigil
