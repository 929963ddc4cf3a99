import Sigil.Codegen.Node

/-!
# Code generation for behaviors

Which body a behavior is compiled from, and the functions made of behaviors,
patterns and executables.
-/

namespace Sigil

/-- The name of a platform in `IMPLEMENTATION[name]`. -/
def TargetPlatform.asStr : TargetPlatform → String
  | windows => "windows"
  | linux => "linux"
  | macOS => "macos"

/-- The IMPLEMENTATION of the platform, or else the first for every platform. -/
def selectImplementation (platform : TargetPlatform) (behavior : Behavior) : Option PlatformImpl :=
  match behavior.implementations.find? fun impl => impl.platform = some platform.asStr with
  | some impl => some impl
  | none => behavior.implementations.find? fun impl => impl.platform.isNone

/-- The body a behavior is compiled from. -/
def compiledBody (platform : TargetPlatform) (behavior : Behavior) : Option (List Node) :=
  match selectImplementation platform behavior with
  | some impl => some impl.nodes
  | none => behavior.composition.map Composition.nodes

/-- A function of the module. One without blocks is a declaration. -/
structure EmittedFunction where
  symbol : String
  paramCount : Nat
  blocks : List EmittedBlock
  deriving DecidableEq, Repr

namespace Gen

/-- Name of a C function; Windows prefixes it. -/
def crtName (platform : TargetPlatform) (base : String) : String :=
  match platform with
  | .windows => "_" ++ base
  | .linux | .macOS => base

def declareExternals : Gen Unit := do
  declare "puts"
  declare (crtName (← get).platform "write")

/-- Start a function: an empty entry block and no names. -/
def beginFunction (symbol : String) : Gen Unit := do
  declare symbol
  modify fun cg => { cg with
    blocks := [{ name := "entry" }]
    current := 0
    vars := ∅
    callOutputs := ∅
    inFunction := true }

/-- Bind parameters to the pointers the function is passed, from position `i` on. -/
def mapParameters (i : Nat) : List Parameter → Gen Unit
  | [] => return ()
  | param :: rest => do
      bindVar param.name (.handle ⟨.param i, param.physSize, .ofAst param.typ⟩)
      mapParameters (i + 1) rest

/-- The body of a behavior. Its reassigned locals are found first. -/
def compileBody (behavior : Behavior) : Gen Unit := do
  modify fun cg => { cg with mutableSlots := ∅ }
  match compiledBody (← get).platform behavior with
  | some nodes => do
      modify fun cg => { cg with reassignedLocals := collectReassigned nodes }
      compileImpl nodes
  | none => pure ()
  modify fun cg => { cg with reassignedLocals := [] }

/-- Make the calling convention of a function known to its callers. -/
def register (name symbol : String) (sig : BehaviorSig) : Gen Unit :=
  modify fun cg => { cg with
    behaviorSigs := cg.behaviorSigs.insert name sig
    behaviorFns := cg.behaviorFns.insert name symbol }

/-- A behavior as a function of pointers to its inputs and outputs. -/
def compileFunction (behavior : Behavior) (fullName : String) : Gen EmittedFunction := do
  let contract := behavior.contract
  let symbol := symbolOf fullName
  let paramCount := contract.inputs.length + contract.outputs.length
  if behavior.isNative then do
    declare symbol
    register fullName symbol (.ofContract fullName contract)
    return ⟨symbol, paramCount, []⟩
  else do
    declareExternals
    let saved ← get
    beginFunction symbol
    let rootScope ← createRootScope
    modify fun cg => { cg with currentScope := some rootScope }
    mapParameters 0 contract.inputs
    mapParameters contract.inputs.length contract.outputs
    compileBody behavior
    if (← get).needsTerminator then do
      destroyRootScope rootScope
      terminate (.ret none)
    let blocks := (← get).blocks
    modify fun cg => { cg with
      currentScope := saved.currentScope
      vars := saved.vars
      callOutputs := saved.callOutputs
      inFunction := saved.inFunction }
    register fullName symbol (.ofContract fullName contract)
    return ⟨symbol, paramCount, blocks⟩

/-- An executable as the entry point. Its ENTRY has no slots of its own. -/
def compileExecutableMain (executable : Executable) : Gen EmittedFunction := do
  declareExternals
  beginFunction "main"
  let savedScope := (← get).currentScope
  let rootScope ← createRootScope
  modify fun cg => { cg with currentScope := some rootScope }
  compileImpl executable.entry
  if (← get).needsTerminator then do
    destroyRootScope rootScope
    terminate (.ret (some (.const 32 0)))
  modify fun cg => { cg with currentScope := savedScope }
  return ⟨"main", 0, (← get).blocks⟩

/-- Bind the MEMORY of a pattern to the bytes of its buffer from `offset` on. -/
def mapMemory (offset : Nat) : List MemoryDecl → Gen Unit
  | [] => return ()
  | decl :: rest => do
      let ptr ← if offset = 0 then pure (.param 0)
        else buildPtr (.gep (.param 0) (i64 offset))
      bindVar decl.name (.handle ⟨ptr, decl.size, .ofAst decl.typ⟩)
      mapMemory (offset + decl.size) rest

/-- The calling convention of a pattern: one buffer for all of its MEMORY. -/
def patternSig (name : String) (pattern : Pattern) : BehaviorSig where
  name := name
  inputSizes := [(pattern.memory.map MemoryDecl.size).sum]
  outputs := []

/-- A pattern as a function of a pointer to its memory. It has no scope and no slots
of its own. -/
def compilePattern (pattern : Pattern) : Gen EmittedFunction := do
  let symbol := "sigil_" ++ String.ofList
    (pattern.name.toList.map fun c => if c = '-' then '_' else c)
  declareExternals
  let saved ← get
  beginFunction symbol
  mapMemory 0 pattern.memory
  compileImpl pattern.onCreate
  if (← get).needsTerminator then terminate (.ret none)
  let blocks := (← get).blocks
  modify fun cg => { cg with
    vars := saved.vars
    callOutputs := saved.callOutputs
    inFunction := saved.inFunction }
  register pattern.name symbol (patternSig pattern.name pattern)
  return ⟨symbol, 1, blocks⟩

/-- Declare a behavior of another module. -/
def declareExternalBehavior (name : String) (contract : Contract) : Gen Unit := do
  if symbolOf name ∉ (← get).moduleFns then
    modify fun cg =>
      { cg with behaviorSigs := cg.behaviorSigs.insert name (.ofContract name contract) }
    declare (symbolOf name)

/-- Declare a pattern of another module. -/
def declareExternalPattern (name : String) (pattern : Pattern) : Gen Unit := do
  if symbolOf name ∉ (← get).moduleFns then
    modify fun cg =>
      { cg with behaviorSigs := cg.behaviorSigs.insert name (patternSig name pattern) }
    declare (symbolOf name)

end Gen

end Sigil
