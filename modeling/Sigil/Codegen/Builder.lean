import Sigil.Codegen.Value
import Sigil.Flow.Returns

/-!
# Code generator and builder

The state of the code generator and what one call of the builder does to it. Blocks
only grow at the insertion point, but for the slots of locals, which go to the top of
the entry block.
-/

namespace Sigil

/-- The platforms the code is generated for. -/
inductive TargetPlatform where
  | windows
  | linux
  | macOS
  deriving DecidableEq, Repr

/-- Width class of the memory slot of a local. -/
inductive SlotType where
  | int
  | float (width : Nat)
  deriving DecidableEq, Repr

/-- The state of the generator. -/
structure CodeGen where
  platform : TargetPlatform := .linux
  blocks : List EmittedBlock := []
  current : Nat := 0
  nextId : Nat := 0
  globals : List (List UInt8) := []
  moduleFns : List String := []
  vars : AList (fun _ : String => SigilValue) := ∅
  callOutputs : AList (fun _ : String => CallOutputs) := ∅
  behaviorSigs : AList (fun _ : String => BehaviorSig) := ∅
  behaviorFns : AList (fun _ : String => String) := ∅
  inFunction : Bool := false
  currentScope : Option PtrValue := none
  reassignedLocals : List String := []
  mutableSlots : AList (fun _ : String => PtrValue × SlotType) := ∅

/-- A step of code generation. -/
abbrev Gen (α : Type) := StateT CodeGen (Except CodeGenError) α

namespace CodeGen

/-- The items emitted into a block so far. -/
def items (cg : CodeGen) (b : Nat) : List Item :=
  match cg.blocks[b]? with
  | some block => block.items
  | none => []

/-- Put an item at the insertion point. -/
def push (cg : CodeGen) (item : Item) : CodeGen :=
  let append (block : EmittedBlock) := { block with items := block.items ++ [item] }
  { cg with blocks := cg.blocks.modify cg.current append }

/-- Whether the block at the insertion point does not end in a terminator. -/
def needsTerminator (cg : CodeGen) : Bool :=
  match ((cg.items cg.current).filter Item.isEmitted).getLast? with
  | some item => !item.isTerm
  | none => true

/-- The number of the next result. -/
def fresh (cg : CodeGen) : CodeGen :=
  { cg with nextId := cg.nextId + 1 }

end CodeGen

namespace Gen

/-- Ask the builder for an instruction and return the number of its result. -/
def build (i : Instr) : Gen Nat := do
  let cg ← get
  let item := if i.folds then Item.folded cg.nextId i else .instr cg.nextId i
  modify fun cg => (cg.push item).fresh
  return cg.nextId

def buildInt (width : Nat) (i : Instr) : Gen IntValue := do
  return .reg width (← build i) i.folds

def buildFloat (width : Nat) (i : Instr) : Gen FloatValue := do
  return .reg width (← build i) i.folds

def buildPtr (i : Instr) : Gen PtrValue := do
  return .reg (← build i) i.folds

/-- Emit a terminator. -/
def terminate (t : BlockEnd) : Gen Unit :=
  modify fun cg => cg.push (.term t)

/-- Append an empty block to the function. -/
def appendBlock (name : String) : Gen Nat := do
  let cg ← get
  modify fun cg => { cg with blocks := cg.blocks ++ [{ name := name }] }
  return cg.blocks.length

/-- Move the insertion point to the end of a block. -/
def positionAtEnd (b : Nat) : Gen Unit :=
  modify fun cg => { cg with current := b }

/-- Declare a function of the module if it is not declared yet. -/
def declare (symbol : String) : Gen Unit :=
  modify fun cg => { cg with moduleFns := cg.moduleFns.insert symbol }

/-- Call a function of the runtime. Its symbol is taken to be the runtime's own: where a behavior
occupies it, the call would find the behavior's function, and fail where its result is wanted. -/
def callRuntime (symbol : String) (args : List CallArg) : Gen Nat := do
  declare symbol
  build (.call symbol args)

/-- Lift a fallible conversion. -/
def lift {α : Type} (result : Except CodeGenError α) : Gen α :=
  match result with
  | .ok a => return a
  | .error e => throw e

def asInt (v : SigilValue) : Gen IntValue := lift v.asInt

def asFloat (v : SigilValue) : Gen FloatValue := lift v.asFloat

def asHandle (v : SigilValue) : Gen Handle := lift v.asHandle

/-- A 64-bit constant. -/
def i64 (n : Int) : IntValue := .const 64 n

/-- The width of an integer of some bytes. -/
def intWidth (size : Nat) : Nat := size * 8 % 2 ^ 32

/-- Extend the narrower of two integers, with its sign. -/
def normalizeIntTypes (a b : IntValue) : Gen (IntValue × IntValue) :=
  if a.width = b.width then return (a, b)
  else if a.width > b.width then do
    let extended ← buildInt a.width (.sext b a.width)
    return (a, extended)
  else do
    let extended ← buildInt b.width (.sext a b.width)
    return (extended, b)

/-- Truncate or zero-extend an integer to a width. -/
def resizeInt (a : IntValue) (width : Nat) : Gen IntValue :=
  if a.width = width then return a
  else if a.width > width then buildInt width (.trunc a width)
  else buildInt width (.zext a width)

/-- Abort unless an access ends within the allocated size. The end is computed at
the width of the offset. -/
def emitBoundsCheck (offset : IntValue) (accessSize allocatedSize : Nat) : Gen Unit := do
  let endOffset ← buildInt offset.width (.intOp .add offset (i64 accessSize))
  let isViolation ← buildInt 1 (.icmp .ugt endOffset (i64 allocatedSize))
  let violationBlock ← appendBlock "bounds_violation"
  let continueBlock ← appendBlock "bounds_ok"
  terminate (.condBr isViolation violationBlock continueBlock)
  positionAtEnd violationBlock
  let _ ← callRuntime "abort" []
  terminate .unreachable
  positionAtEnd continueBlock

/-- Memory on the stack. -/
def allocHandle (size : Nat) (typ : HandleType) : Gen Handle := do
  return ⟨← buildPtr (.alloca (size % 2 ^ 32)), size, typ⟩

/-- Memory of the current scope, on the stack where there is no scope. -/
def scopeAllocHandle (size : Nat) (typ : HandleType) : Gen Handle := do
  match (← get).currentScope with
  | none => allocHandle size typ
  | some scope =>
      let id ← callRuntime "sigil_scope_alloc" [.ptr scope, .int (i64 size)]
      return ⟨.reg id false, size, typ⟩

/-- The scope of a function, under no other. -/
def createRootScope : Gen PtrValue := do
  return .reg (← callRuntime "sigil_scope_create" [.ptr .null]) false

/-- Release what is left in the scope of a function. -/
def destroyRootScope (scope : PtrValue) : Gen Unit := do
  let _ ← callRuntime "sigil_scope_destroy" [.ptr scope]

/-- Check a dynamic offset where the function and the size of the memory are
known. -/
def checkOffset (h : Handle) (size : Nat) : Offset → Gen Unit
  | .const _ => return ()
  | .dynamic offset => do
      if (← get).inFunction && h.size > 0 then emitBoundsCheck offset size h.size

/-- The address of an access. -/
def address (h : Handle) : Offset → Gen PtrValue
  | .const 0 => return h.ptr
  | .const off => buildPtr (.gep h.ptr (i64 off))
  | .dynamic offset => buildPtr (.gep h.ptr offset)

/-- LOAD: a float from float memory, an integer of the access size otherwise. -/
def load (h : Handle) (size : Nat) (offset : Offset) : Gen SigilValue := do
  checkOffset h size offset
  let ptr ← address h offset
  match h.typ with
  | .float =>
      let width := if size = 4 then 32 else 64
      return .float (← buildFloat width (.loadFloat ptr width))
  | .int | .bytes | .string =>
      return .immediate (← buildInt (intWidth size) (.load ptr (intWidth size)))

/-- STORE: an integer or address resized to the access size, a float as it is. -/
def store (h : Handle) (value : SigilValue) (size : Nat) (offset : Offset) : Gen Unit := do
  checkOffset h size offset
  let ptr ← address h offset
  match value with
  | .immediate i =>
      let _ ← build (.store ptr (← resizeInt i (intWidth size)))
  | .handle src =>
      let address ← buildInt 64 (.ptrtoint src.ptr)
      let _ ← build (.store ptr (← resizeInt address (intWidth size)))
  | .float f =>
      let _ ← build (.storeFloat ptr f)

/-- Wrap a value for passing it to CALL. -/
def immediateToHandle : SigilValue → Gen Handle
  | .handle h => return h
  | .immediate i => do
      let h ← allocHandle (max (i.width / 8) 8) .int
      let _ ← build (.store h.ptr i)
      return h
  | .float f => do
      let h ← allocHandle (if f.width = 32 then 4 else 8) .float
      let _ ← build (.storeFloat h.ptr f)
      return h

/-- A field of the outputs of a CALL. -/
def getField (outputs : CallOutputs) (field : String) : Gen Handle :=
  match outputs.slots.find? fun slot => slot.name = field with
  | none => throw (.undefinedField "call_result" field)
  | some slot => do
      let ptr ← if slot.offset > 0 then buildPtr (.gep outputs.buffer.ptr (i64 slot.offset))
        else pure outputs.buffer.ptr
      return ⟨ptr, slot.size, slot.typ⟩

/-- Read a variable: the current value of its slot if it has one. -/
def getVar (name : String) : Gen SigilValue := do
  let cg ← get
  match cg.mutableSlots.lookup name with
  | some (ptr, .int) => return .immediate (← buildInt 64 (.load ptr 64))
  | some (ptr, .float width) => return .float (← buildFloat width (.loadFloat ptr width))
  | none => match cg.vars.lookup name with
    | some value => return value
    | none => throw (.undefinedVariable name)

/-- Read a name the way WAIT, channels and FREE do, past its slot. -/
def getBinding (name : String) : Gen SigilValue := do
  match (← get).vars.lookup name with
  | some value => return value
  | none => throw (.undefinedVariable name)

/-- Bind a name. -/
def bindVar (name : String) (value : SigilValue) : Gen Unit :=
  modify fun cg => { cg with vars := cg.vars.insert name value }

/-- The memory behind a LOAD source or STORE target. An integer is an address, of
memory of unknown size. -/
def derefHandle (role : String) : SigilValue → Gen Handle
  | .handle h => return h
  | .immediate i => do return ⟨← buildPtr (.inttoptr i), 0, .int⟩
  | .float _ => throw (.typeError (role ++ " must be handle or pointer value"))

/-- The symbol of a behavior or pattern. -/
def symbolOf (name : String) : String :=
  "sigil_" ++ String.ofList (name.toList.map fun c => if c = '-' || c = '/' then '_' else c)

end Gen

/-- The size of an ALLOC, where the generator knows it. -/
def Expr.evalConstInt : Expr → Option (BitVec 64)
  | .intLit n => some n
  | _ => none

end Sigil
