import Sigil.Codegen.Expr

/-!
# Code generation for statements

`compileNode`, one pass over the text. A local that is assigned more than once is
kept in a slot of the entry block; every other name is bound to the value generated
last for it, whatever statement ran last.
-/

namespace Sigil

/-- The block of each label of a body. -/
abbrev Labels := AList fun _ : String => Nat

/-- Whether a value can be kept in a slot. -/
def SigilValue.isScalar : SigilValue → Bool
  | immediate _ | float _ => true
  | handle _ => false

namespace Gen

mutual

/-- Append a block for every LABEL, those inside SCOPE included. -/
def collectLabelBlocks : List Node → Labels → Gen Labels
  | [], labels => return labels
  | node :: rest, labels => do collectLabelBlocks rest (← labelBlocksOf node labels)

def labelBlocksOf : Node → Labels → Gen Labels
  | .label _ name, labels => return labels.insert name (← appendBlock name)
  | .scope _ nodes, labels => collectLabelBlocks nodes labels
  | _, labels => return labels

end

/-- Put an item at the top of the entry block. -/
def prependEntry (item : Item) : Gen Unit :=
  let prepend (block : EmittedBlock) := { block with items := item :: block.items }
  modify fun cg => { cg with blocks := cg.blocks.modify 0 prepend }

/-- The slot of a local, at the top of the entry block. -/
def createEntryAlloca (slot : SlotType) : Gen PtrValue := do
  let cg ← get
  if cg.inFunction = false then throw (.llvmError "no current function for local slot")
  if cg.blocks = [] then throw (.llvmError "function has no entry block")
  let bytes := match slot with
    | .int => 8
    | .float width => width / 8
  prependEntry (.instr cg.nextId (.alloca bytes))
  modify CodeGen.fresh
  return .reg cg.nextId false

/-- The slot for a value: 64 bits for an integer of any width. -/
def slotTypeOf : SigilValue → Gen SlotType
  | .immediate _ => return .int
  | .float f => return .float f.width
  | .handle _ => throw (.llvmError "non-scalar mutable local")

/-- The slot of a local, created at its first assignment. -/
def slotOf (name : String) (value : SigilValue) : Gen (PtrValue × SlotType) := do
  match (← get).mutableSlots.lookup name with
  | some slot => return slot
  | none => do
      let slot ← slotTypeOf value
      let ptr ← createEntryAlloca slot
      modify fun cg => { cg with mutableSlots := cg.mutableSlots.insert name (ptr, slot) }
      return (ptr, slot)

/-- Store a value into the slot of a local, an integer zero-extended. -/
def storeMutableLocal (name : String) (value : SigilValue) : Gen Unit := do
  let (ptr, slot) ← slotOf name value
  match value, slot with
  | .immediate i, .int =>
      let _ ← build (.store ptr (← resizeInt i 64))
  | .immediate _, .float _ =>
      throw (.panicked "Found FloatType but expected the IntType variant")
  | .float f, _ =>
      let _ ← build (.storeFloat ptr f)
  | .handle _, _ => throw (.llvmError "non-scalar mutable local")

/-- Take the outputs the last CALL left. -/
def takePending : Gen (Option CallOutputs) := do
  let pending := (← get).callOutputs.lookup "__pending"
  modify fun cg => { cg with callOutputs := cg.callOutputs.erase "__pending" }
  return pending

/-- Keep the outputs of a CALL under the name of its result. -/
def keepPending (target : String) : Gen Unit := do
  match ← takePending with
  | some outputs =>
      modify fun cg => { cg with callOutputs := cg.callOutputs.insert target outputs }
  | none => return ()

def compileAssignment (target : String) (expr : Expr) : Gen Unit := do
  let value ← compileExpr expr
  if target ∈ (← get).reassignedLocals ∧ value.isScalar then storeMutableLocal target value
  else bindVar target value
  match expr with
  | .call _ _ => keepPending target
  | _ => return ()

def compileStore (target : String) (value : Expr) (size : Nat) (offset : Option Expr) :
    Gen Unit := do
  let handle ← derefHandle "STORE target" (← getVar target)
  let val ← compileExpr value
  let off ← compileOffset offset
  store handle val size off

/-- The block of a label. -/
def labelBlock (labels : Labels) (label : String) : Gen Nat :=
  match labels.lookup label with
  | some block => return block
  | none => throw (.undefinedLabel label)

/-- A BRANCH condition; memory is loaded first. -/
def branchCondition : SigilValue → Gen IntValue
  | .immediate i => return i
  | .handle h => do asInt (← load h (min h.size 8) (.const 0))
  | .float _ => throw (.typeError "BRANCH condition must be int")

def compileBranch (labels : Labels) (condition : Expr) (trueLabel falseLabel : String) :
    Gen Unit := do
  let cond ← branchCondition (← compileExpr condition)
  let taken ← buildInt 1 (.icmp .ne cond (.const cond.width 0))
  let onTrue ← labelBlock labels trueLabel
  let onFalse ← labelBlock labels falseLabel
  terminate (.condBr taken onTrue onFalse)

/-- SET stores into a name bound to memory and binds any other. A `string` slot takes
the address, other memory the first bytes behind a handle. -/
def compileSet (target : String) (value : Expr) : Gen Unit := do
  let val ← compileExpr value
  match (← get).vars.lookup target with
  | some (.handle h) =>
      if h.typ = .string then store h val 8 (.const 0)
      else do
        let toStore ← match val with
          | .handle src => load src (min src.size 8) (.const 0)
          | .immediate _ | .float _ => pure val
        store h toStore h.size (.const 0)
  | _ => bindVar target val

/-- `->`: copy each output slot into memory of that name, or bind the name to what
the slot holds. -/
def redirect (src : Handle) : List (String × OutputSlot) → Gen Unit
  | [] => return ()
  | (outName, slot) :: rest => do
      match (← get).vars.lookup outName with
      | some (.handle dest) => do
          let srcPtr ← if slot.offset > 0 then buildPtr (.gep src.ptr (i64 slot.offset))
            else pure src.ptr
          let n := if dest.size = 0 then slot.size else min slot.size dest.size
          let _ ← build (.memcpy dest.ptr srcPtr (i64 n))
      | _ => do
          let extracted ← load src slot.size (.const slot.offset)
          bindVar outName extracted
      redirect src rest

def compileCallNode (target : Option String) (behavior : String) (args : List Expr)
    (outputs : List String) : Gen Unit := do
  let result ← compileExpr (.call behavior args)
  match target with
  | some name => do
      bindVar name result
      keepPending name
  | none => pure ()
  if outputs ≠ [] then
    match ← takePending, result with
    | some callOutputs, .handle src => redirect src (outputs.zip callOutputs.slots)
    | _, _ => pure ()

/-- FREE of a name bound to memory, where there is a scope. -/
def compileFree (name : String) : Gen Unit := do
  let cg ← get
  match cg.currentScope, cg.vars.lookup name with
  | some scope, some (.handle h) =>
      let _ ← callRuntime "sigil_scope_free" [.ptr scope, .ptr h.ptr]
  | _, _ => return ()

/-- SCOPE: a child of the current scope, if there is one, and the bindings put back
at its end. -/
def compileScope (body : Gen Unit) : Gen Unit := do
  let saved ← get
  match saved.currentScope with
  | some parent => do
      let child ← callRuntime "sigil_scope_create" [.ptr parent]
      modify fun cg => { cg with currentScope := some (.reg child false) }
      body
      let _ ← callRuntime "sigil_scope_destroy" [.ptr (.reg child false)]
  | none => body
  modify fun cg => { cg with currentScope := saved.currentScope, vars := saved.vars }

def compileChannelSend (channel : String) (value : Expr) : Gen Unit := do
  declare "sigil_channel_send"
  let channelInt ← asInt (← getBinding channel)
  let val ← compileExpr value
  let buffer ← allocHandle 8 .int
  store buffer val 8 (.const 0)
  let _ ← build (.call "sigil_channel_send" [.int channelInt, .ptr buffer.ptr])

def compileChannelClose (channel : String) : Gen Unit := do
  declare "sigil_channel_close"
  let channelInt ← asInt (← getBinding channel)
  let _ ← build (.call "sigil_channel_close" [.int channelInt])

/-- WAIT_ALL waits in turn; a target is bound before the next handle is read. -/
def compileWaits : List String → List String → Gen Unit
  | _, [] => return ()
  | targets, handleName :: handles => do
      let handle ← asInt (← getBinding handleName)
      let _ ← build (.call "sigil_wait" [.int handle, .ptr .null, .int (i64 0)])
      match targets with
      | target :: _ => bindVar target (.immediate (i64 0))
      | [] => pure ()
      compileWaits targets.tail handles

/-- The handles of a WAIT_ANY from position `i` on, stored in an array. -/
def storeHandles (array : PtrValue) (i : Nat) : List String → Gen Unit
  | [] => return ()
  | handleName :: handles => do
      let handle ← asInt (← getBinding handleName)
      let element ← buildPtr (.gep array (i64 (i * 8)))
      let _ ← build (.store element handle)
      storeHandles array (i + 1) handles

def compileWaitAny (result which : String) (handles : List String) : Gen Unit := do
  let array ← buildPtr (.alloca (handles.length % 2 ^ 32 * 8))
  storeHandles array 0 handles
  declare "sigil_wait_any"
  let passed := [.ptr array, .int (i64 handles.length), .ptr .null, .int (i64 0)]
  let index ← buildInt 64 (.call "sigil_wait_any" passed)
  bindVar result (.immediate (i64 0))
  bindVar which (.immediate index)

def compileLabel (labels : Labels) (name : String) : Gen Unit := do
  match labels.lookup name with
  | some block => do
      if (← get).needsTerminator then terminate (.br block)
      positionAtEnd block
  | none => return ()

mutual

def compileNode (labels : Labels) : Node → Gen Unit
  | .label _ name => compileLabel labels name
  | .assignment _ target expr => compileAssignment target expr
  | .store _ target value size offset => compileStore target value size offset
  | .jump _ label => do terminate (.br (← labelBlock labels label))
  | .branch _ condition trueLabel falseLabel =>
      compileBranch labels condition trueLabel falseLabel
  | .set _ target value => compileSet target value
  | .call _ target behavior args outputs => compileCallNode target behavior args outputs
  | .free _ name => compileFree name
  | .discard _ _ => return ()
  | .scope _ nodes => compileScope (compileNodes labels nodes)
  | .channelSend _ channel value => compileChannelSend channel value
  | .channelClose _ channel => compileChannelClose channel
  | .spawn _ target pattern args => do bindVar target (← compileExpr (.spawn pattern args))
  | .wait _ target handle => do bindVar target (← compileExpr (.wait handle))
  | .waitAll _ targets handles => do
      declare "sigil_wait"
      compileWaits targets handles
  | .waitAny _ result which handles => compileWaitAny result which handles

def compileNodes (labels : Labels) : List Node → Gen Unit
  | [] => return ()
  | node :: rest => do
      compileNode labels node
      compileNodes labels rest

end

/-- A body: a block for every label, then the statements. -/
def compileImpl (nodes : List Node) : Gen Unit := do
  let labels ← collectLabelBlocks nodes ∅
  compileNodes labels nodes

end Gen

mutual

/-- How often each name is assigned in statements, SCOPE included. -/
def assignmentTargets : List Node → List String
  | [] => []
  | node :: rest => node.assignmentTarget ++ assignmentTargets rest

def Node.assignmentTarget : Node → List String
  | .assignment _ target _ => [target]
  | .scope _ nodes => assignmentTargets nodes
  | _ => []

end

/-- The names assigned more than once. -/
def collectReassigned (nodes : List Node) : List String :=
  let targets := assignmentTargets nodes
  targets.dedup.filter fun name => targets.count name ≥ 2

end Sigil
