import Sigil.Semantic.Types

/-!
# Analysis context

What the analyzer knows about the names of a behavior while it walks the body.
The maps are finite maps from names; a set of names is a list.
-/

namespace Sigil

/-- Where a variable came from, with the size of its memory if that is known. -/
inductive VarOrigin where
  | input (declaredSize : Nat)
  | output (declaredSize : Nat)
  | alloc (allocatedSize : Option Nat)
  | loadResult
  | computed
  | callResult (totalSize : Option Nat)
  deriving DecidableEq, Repr

/-- Ownership of a handle. -/
inductive HandleState where
  | owned
  | borrowed
  | freed (atLine : Nat)
  | notAHandle
  deriving DecidableEq, Repr

/-- A borrow of a handle by a spawned pattern, active until its WAIT. -/
structure ActiveBorrow where
  patternName : String
  spawnLine : Nat
  spawnHandle : String
  deriving DecidableEq, Repr

/-- What the analyzer records of a variable. -/
structure VarInfo where
  typ : Option AstType
  size : Nat
  origin : VarOrigin
  state : HandleState
  shared : Bool
  channelElementType : Option AstType
  deriving DecidableEq, Repr

/-- The size of the memory a variable denotes, if known. -/
def VarInfo.allocatedSize (info : VarInfo) : Option Nat :=
  match info.origin with
  | .input declaredSize => some declaredSize
  | .output declaredSize => some declaredSize
  | .alloc allocatedSize => allocatedSize
  | .callResult totalSize => totalSize
  | .loadResult | .computed => none

abbrev Contracts := AList fun _ : String => Contract

/-- What the analyzer knows at a place of the text. -/
structure AnalysisContext where
  labels : AList (fun _ : String => Nat) := ∅
  vars : AList (fun _ : String => VarInfo) := ∅
  inputs : AList (fun _ : String => Parameter) := ∅
  outputs : AList (fun _ : String => Parameter) := ∅
  writtenOutputs : List String := []
  guarantees : List Guarantee
  currentLine : Nat := 1
  hasUnscopedAlloc : Bool := false
  scopeDepth : Nat := 0
  hasChannelOps : Bool := false
  hasNonOutputWrites : Bool := false
  dependencyContracts : Contracts
  patternNames : List String
  spawnBorrows : AList (fun _ : String => List ActiveBorrow) := ∅

namespace AnalysisContext

/-- A context without parameters. -/
def bare : AnalysisContext where
  guarantees := []
  dependencyContracts := ∅
  patternNames := []

/-- Register an INPUT: borrowed memory of its declared size. -/
def addInput (ctx : AnalysisContext) (input : Parameter) : AnalysisContext :=
  { ctx with
    inputs := ctx.inputs.insert input.name input
    vars := ctx.vars.insert input.name
      { typ := some input.typ, size := input.size, origin := .input input.size
        state := .borrowed, shared := false, channelElementType := none } }

/-- Register an OUTPUT: borrowed memory of its declared size. -/
def addOutput (ctx : AnalysisContext) (output : Parameter) : AnalysisContext :=
  { ctx with
    outputs := ctx.outputs.insert output.name output
    vars := ctx.vars.insert output.name
      { typ := some output.typ, size := output.size, origin := .output output.size
        state := .borrowed, shared := false, channelElementType := none } }

/-- The context in which the analysis of a behavior starts. -/
def new (behavior : Behavior) (dependencies : Contracts) (patterns : List String) :
    AnalysisContext :=
  let ctx : AnalysisContext :=
    { guarantees := behavior.contract.guarantees
      dependencyContracts := dependencies
      patternNames := patterns }
  behavior.contract.outputs.foldl addOutput (behavior.contract.inputs.foldl addInput ctx)

/-- Define a label, or return the line that defined it first. -/
def defineLabel (ctx : AnalysisContext) (name : String) (line : Nat) :
    AnalysisContext × Option Nat :=
  match ctx.labels.lookup name with
  | some first => (ctx, some first)
  | none => ({ ctx with labels := ctx.labels.insert name line }, none)

def labelExists (ctx : AnalysisContext) (name : String) : Bool :=
  (ctx.labels.lookup name).isSome

def defineVar (ctx : AnalysisContext) (name : String) (info : VarInfo) : AnalysisContext :=
  { ctx with vars := ctx.vars.insert name info }

def getVar (ctx : AnalysisContext) (name : String) : Option VarInfo :=
  ctx.vars.lookup name

def varExists (ctx : AnalysisContext) (name : String) : Bool :=
  (ctx.vars.lookup name).isSome

/-- Whether a name is a declared output. -/
def isOutput (ctx : AnalysisContext) (name : String) : Bool :=
  (ctx.outputs.lookup name).isSome

/-- The oldest active borrow of a handle. -/
def getActiveBorrow (ctx : AnalysisContext) (handleName : String) : Option ActiveBorrow :=
  (ctx.spawnBorrows.lookup handleName).bind List.head?

def addSpawnBorrow (ctx : AnalysisContext) (handleName patternName : String) (spawnLine : Nat)
    (spawnHandle : String) : AnalysisContext :=
  let borrows := (ctx.spawnBorrows.lookup handleName).getD [] ++
    [⟨patternName, spawnLine, spawnHandle⟩]
  { ctx with spawnBorrows := ctx.spawnBorrows.insert handleName borrows }

/-- Drop every borrow held through a spawn handle. -/
def releaseSpawnBorrows (ctx : AnalysisContext) (spawnHandle : String) : AnalysisContext :=
  let retain := fun (borrows : AList fun _ : String => List ActiveBorrow) handle =>
    borrows.insert handle (((borrows.lookup handle).getD []).filter
      fun borrow => borrow.spawnHandle ≠ spawnHandle)
  { ctx with spawnBorrows := ctx.spawnBorrows.keys.foldl retain ctx.spawnBorrows }

def markOutputWritten (ctx : AnalysisContext) (name : String) : AnalysisContext :=
  if ctx.isOutput name then { ctx with writtenOutputs := ctx.writtenOutputs.insert name } else ctx

def hasGuarantee (ctx : AnalysisContext) (g : Guarantee) : Bool :=
  g ∈ ctx.guarantees

end AnalysisContext

end Sigil
