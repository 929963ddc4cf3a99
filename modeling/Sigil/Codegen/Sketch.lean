import Sigil.Codegen.Node
import Sigil.Flow.Abstraction

/-!
# Kinds and widths of generated values

A sketch of the generator knows of each value whether it is a handle, an integer or a
float, how wide it is and whether it is constant, and of each block whether it still
takes instructions. It follows the generator through expressions, and tells of what width the
values are that are written to memory.
-/

namespace Sigil

open Flow

/-- Width of an integer or float, and whether it is constant. -/
structure Scalar where
  width : Nat
  const : Bool
  deriving DecidableEq, Repr

/-- Size and interpretation of memory, and whether its address is constant. -/
structure MemoryShape where
  size : Nat
  typ : HandleType
  const : Bool
  deriving DecidableEq, Repr

/-- What is known of a value. -/
inductive Shape where
  | handle (m : MemoryShape)
  | int (i : Scalar)
  | float (f : Scalar)
  deriving DecidableEq, Repr

/-- Whether a value of a shape can be kept in a slot. -/
def Shape.isScalar : Shape → Bool
  | int _ | float _ => true
  | handle _ => false

/-- What is known of the outputs of a CALL. -/
structure OutputLayout where
  const : Bool
  slots : List OutputSlot
  deriving DecidableEq, Repr

/-- A sketch of the generator. A block is open while it takes instructions. -/
structure Sketch where
  platform : TargetPlatform
  opens : List Bool
  current : Nat
  clean : Bool
  aligned : Bool
  moduleFns : List String
  behaviorSigs : AList (fun _ : String => BehaviorSig)
  behaviorFns : AList (fun _ : String => String)
  inFunction : Bool
  isScoped : Bool
  reassignedLocals : List String
  vars : String → Option Shape
  outputs : String → Option OutputLayout
  slots : String → Option SlotType

/-- A computation on sketches. -/
abbrev Draft (α : Type) := StateT Sketch Option α

namespace Sketch

/-- Whether the block at the insertion point takes instructions. -/
def isOpen (sk : Sketch) : Bool := sk.opens.getD sk.current true

/-- An instruction goes to the insertion point. After a terminator it opens the block
again. -/
def emit (sk : Sketch) (aligned : Bool) : Sketch :=
  { sk with
    opens := sk.opens.set sk.current true
    clean := sk.clean && sk.isOpen
    aligned := sk.aligned && aligned }

/-- A terminator goes to the insertion point. -/
def close (sk : Sketch) : Sketch :=
  { sk with opens := sk.opens.set sk.current false, clean := sk.clean && sk.isOpen }

def append (sk : Sketch) : Sketch :=
  { sk with opens := sk.opens ++ [true] }

def position (sk : Sketch) (b : Nat) : Sketch :=
  { sk with current := b }

def declare (sk : Sketch) (symbol : String) : Sketch :=
  { sk with moduleFns := sk.moduleFns.insert symbol }

def bind (sk : Sketch) (name : String) (shape : Shape) : Sketch :=
  { sk with vars := Function.update sk.vars name (some shape) }

def keepOutputs (sk : Sketch) (name : String) (layout : Option OutputLayout) : Sketch :=
  { sk with outputs := Function.update sk.outputs name layout }

end Sketch

namespace Draft

/-- An instruction, or a constant where it folds. -/
def build (folds aligned : Bool) : Draft Unit :=
  if folds then return () else modify fun sk => sk.emit aligned

/-- An integer or float of a width. -/
def scalar (width : Nat) (folds aligned : Bool) : Draft Scalar := do
  build folds aligned
  return ⟨width, folds⟩

/-- An address; the result says whether it is constant. -/
def pointer (folds : Bool) : Draft Bool := do
  build folds true
  return folds

/-- An instruction that never folds. -/
def emit : Draft Unit := build false true

def terminate : Draft Unit := modify Sketch.close

def appendBlock : Draft Nat := do
  let sk ← get
  modify Sketch.append
  return sk.opens.length

def positionAtEnd (b : Nat) : Draft Unit := modify fun sk => sk.position b

def declare (symbol : String) : Draft Unit := modify fun sk => sk.declare symbol

def callRuntime (symbol : String) : Draft Unit := do
  declare symbol
  emit

def asInt : Shape → Draft Scalar
  | .int i => return i
  | .handle _ | .float _ => failure

def asFloat : Shape → Draft Scalar
  | .float f => return f
  | .handle _ | .int _ => failure

def asHandle : Shape → Draft MemoryShape
  | .handle m => return m
  | .int _ | .float _ => failure

/-- A 64-bit constant. -/
def i64 : Scalar := ⟨64, true⟩

def normalizeIntTypes (a b : Scalar) : Draft (Scalar × Scalar) :=
  if a.width = b.width then return (a, b)
  else if a.width > b.width then do
    let extended ← scalar a.width b.const true
    return (a, extended)
  else do
    let extended ← scalar b.width a.const true
    return (extended, b)

def resizeInt (a : Scalar) (width : Nat) : Draft Scalar :=
  if a.width = width then return a
  else scalar width a.const true

/-- The bounds check adds and compares at the width of the offset, with 64-bit
constants. -/
def emitBoundsCheck (offset : Scalar) : Draft Unit := do
  let endOffset ← scalar offset.width offset.const (offset.width = 64)
  let _ ← scalar 1 endOffset.const (endOffset.width = 64)
  let violationBlock ← appendBlock
  let continueBlock ← appendBlock
  terminate
  positionAtEnd violationBlock
  callRuntime "abort"
  terminate
  positionAtEnd continueBlock

def allocHandle (size : Nat) (typ : HandleType) : Draft MemoryShape := do
  return ⟨size, typ, ← pointer false⟩

def scopeAllocHandle (size : Nat) (typ : HandleType) : Draft MemoryShape := do
  match (← get).isScoped with
  | false => allocHandle size typ
  | true => do
      callRuntime "sigil_scope_alloc"
      return ⟨size, typ, false⟩

/-- A known offset, or one that is computed. -/
inductive Distance where
  | const (n : Nat)
  | dynamic (i : Scalar)

def checkOffset (m : MemoryShape) : Distance → Draft Unit
  | .const _ => return ()
  | .dynamic offset => do
      if (← get).inFunction && m.size > 0 then emitBoundsCheck offset

/-- The address of an access; the result says whether it is constant. -/
def address (m : MemoryShape) : Distance → Draft Bool
  | .const 0 => return m.const
  | .const _ => pointer m.const
  | .dynamic offset => pointer (m.const && offset.const)

def load (m : MemoryShape) (size : Nat) (offset : Distance) : Draft Shape := do
  checkOffset m offset
  let _ ← address m offset
  match m.typ with
  | .float => return .float (← scalar (if size = 4 then 32 else 64) false true)
  | .int | .bytes | .string => return .int (← scalar (Gen.intWidth size) false true)

def store (m : MemoryShape) (value : Shape) (size : Nat) (offset : Distance) : Draft Unit := do
  checkOffset m offset
  let _ ← address m offset
  match value with
  | .int i => do
      let _ ← resizeInt i (Gen.intWidth size)
      emit
  | .handle src => do
      let address ← scalar 64 src.const true
      let _ ← resizeInt address (Gen.intWidth size)
      emit
  | .float _ => emit

def immediateToHandle : Shape → Draft MemoryShape
  | .handle m => return m
  | .int i => do
      let m ← allocHandle (max (i.width / 8) 8) .int
      emit
      return m
  | .float f => do
      let m ← allocHandle (if f.width = 32 then 4 else 8) .float
      emit
      return m

/-- The address of an output slot; the result says whether it is constant. -/
def slotPointer (const : Bool) (offset : Nat) : Draft Bool :=
  if offset > 0 then pointer const else return const

def getField (layout : OutputLayout) (field : String) : Draft MemoryShape :=
  match layout.slots.find? fun slot => slot.name = field with
  | none => failure
  | some slot => do return ⟨slot.size, slot.typ, ← slotPointer layout.const slot.offset⟩

def getVar (name : String) : Draft Shape := do
  let sk ← get
  match sk.slots name with
  | some .int => return .int (← scalar 64 false true)
  | some (.float width) => return .float (← scalar width false true)
  | none => match sk.vars name with
    | some shape => return shape
    | none => failure

def getBinding (name : String) : Draft Shape := do
  match (← get).vars name with
  | some shape => return shape
  | none => failure

def bindVar (name : String) (shape : Shape) : Draft Unit := modify fun sk => sk.bind name shape

def derefHandle : Shape → Draft MemoryShape
  | .handle m => return m
  | .int i => return ⟨0, .int, ← pointer i.const⟩
  | .float _ => failure

def compileString (s : String) : Draft Shape :=
  return .handle ⟨8 + s.toUTF8.toList.length, .string, true⟩

def compileField (base : Expr) (field : String) : Draft Shape := do
  match base with
  | .var baseName => match (← get).outputs baseName with
    | none => failure
    | some layout => do
        let m ← getField layout field
        if m.typ = .string then return .handle ⟨0, .string, ← pointer false⟩
        else return .handle m
  | _ => failure

def compileIntBinop (a b : Draft Shape) : Draft Shape := do
  let av ← asInt (← a)
  let bv ← asInt (← b)
  let (av, bv) ← normalizeIntTypes av bv
  return .int (← scalar av.width (av.const && bv.const) true)

def compileIntCmp (a b : Draft Shape) : Draft Shape := do
  let av ← asInt (← a)
  let bv ← asInt (← b)
  let (av, bv) ← normalizeIntTypes av bv
  let cmp ← scalar 1 (av.const && bv.const) true
  return .int (← scalar 64 cmp.const true)

def compileFloatBinop (a b : Draft Shape) : Draft Shape := do
  let av ← asFloat (← a)
  let bv ← asFloat (← b)
  return .float (← scalar av.width (av.const && bv.const) true)

def compileFloatCmp (a b : Draft Shape) : Draft Shape := do
  let av ← asFloat (← a)
  let bv ← asFloat (← b)
  let cmp ← scalar 1 (av.const && bv.const) true
  return .int (← scalar 64 cmp.const true)

/-- INEG subtracts from a 64-bit zero whatever the width of its operand. -/
def compileIneg (a : Draft Shape) : Draft Shape := do
  let av ← asInt (← a)
  return .int (← scalar 64 av.const (av.width = 64))

def compileNot (a : Draft Shape) : Draft Shape := do
  let av ← asInt (← a)
  return .int (← scalar av.width av.const true)

def compileFneg (a : Draft Shape) : Draft Shape := do
  let av ← asFloat (← a)
  return .float (← scalar av.width av.const true)

def compileFtoi (a : Draft Shape) (intSize : Nat) : Draft Shape := do
  let fv ← asFloat (← a)
  return .int (← scalar (Gen.intWidth intSize) fv.const true)

def compileItof (a : Draft Shape) (floatSize : Nat) : Draft Shape := do
  let iv ← asInt (← a)
  return .float (← scalar (if floatSize = 4 then 32 else 64) iv.const true)

def compileAtomicStore (target value : Draft Shape) (size : Nat) : Draft Shape := do
  let m ← asHandle (← target)
  let val ← value
  store m val size (.const 0)
  return val

/-- CAS takes operands of one width only. -/
def compileCas (addr expected new : Draft Shape) : Draft Shape := do
  let _ ← asHandle (← addr)
  let exp ← asInt (← expected)
  let newVal ← asInt (← new)
  if exp.width ≠ newVal.width then failure
  emit
  let success ← scalar 1 false true
  return .int (← scalar 64 success.const true)

def compileAtomicRmw (target value : Draft Shape) : Draft Shape := do
  let _ ← asHandle (← target)
  let val ← asInt (← value)
  if val.width < 8 ∨ ¬ val.width.isPowerOfTwo then failure
  return .int (← scalar val.width false true)

def spawnArg : Shape → Draft Scalar
  | .handle m => scalar 64 m.const true
  | .int i => return i
  | .float f => scalar 64 f.const true

def spawnBufferSize (sk : Sketch) (pattern : String) (argCount : Nat) : Nat :=
  match (sk.behaviorSigs.lookup pattern).bind fun sig => sig.inputSizes.head? with
  | some memorySize => if memorySize > 0 then memorySize else argCount * 8
  | none => argCount * 8

def compileSpawn (pattern : String) (argCount : Nat) (args : MemoryShape → Draft Unit) :
    Draft Shape := do
  declare "sigil_spawn"
  let sk ← get
  if Gen.symbolOf pattern ∉ sk.moduleFns then failure
  let argsBuf ← allocHandle (spawnBufferSize sk pattern argCount) .bytes
  args argsBuf
  return .int (← scalar 64 false true)

def compileWait (handleName : String) : Draft Shape := do
  declare "sigil_wait"
  let _ ← asInt (← getBinding handleName)
  emit
  return .int i64

def compileChannel (capacity : Draft Shape) : Draft Shape := do
  declare "sigil_channel_create"
  let _ ← asInt (← capacity)
  return .int (← scalar 64 false true)

def compileChannelReceive (channelName : String) : Draft Shape := do
  declare "sigil_channel_receive"
  let _ ← asInt (← getBinding channelName)
  let _ ← allocHandle 8 .int
  emit
  return .int (← scalar 64 false true)

def callee (behavior : String) : Draft Unit := do
  let sk ← get
  match sk.behaviorFns.lookup behavior with
  | some _ => return ()
  | none => if Gen.symbolOf behavior ∈ sk.moduleFns then return () else failure

def outputsOf (sk : Sketch) (behavior : String) : List OutputSlot :=
  match sk.behaviorSigs.lookup behavior with
  | some sig => sig.outputs
  | none => []

def slotPointers (const : Bool) : List OutputSlot → Draft Unit
  | [] => return ()
  | slot :: rest => do
      let _ ← slotPointer const slot.offset
      slotPointers const rest

def compileCall (behavior : String) (args : Draft Unit) : Draft Shape := do
  callee behavior
  let slots := outputsOf (← get) behavior
  args
  let totalSize := (slots.map OutputSlot.size).sum
  if totalSize > 0 then do
    let buffer ← scopeAllocHandle totalSize .bytes
    slotPointers buffer.const slots
    emit
    modify fun sk => sk.keepOutputs "__pending" (some ⟨buffer.const, slots⟩)
    return .handle buffer
  else do
    emit
    return .int i64

mutual

def compileExpr : Expr → Draft Shape
  | .intLit _ => return .int i64
  | .floatLit _ => return .float ⟨64, true⟩
  | .stringLit s => compileString s
  | .var name => getVar name
  | .field base field => compileField base field
  | .alloc size typ _ => do
      let bytes := (size.evalConstInt.map BitVec.toNat).getD 64
      return .handle (← scopeAllocHandle bytes (.ofAst typ))
  | .load source size offset => do
      let m ← derefHandle (← compileExpr source)
      load m size (← compileOffset offset)
  | .call behavior args => compileCall behavior (compileArgs args)
  | .intArith _ a b _ => compileIntBinop (compileExpr a) (compileExpr b)
  | .ineg a _ => compileIneg (compileExpr a)
  | .intCmp _ a b _ => compileIntCmp (compileExpr a) (compileExpr b)
  | .bitwise _ a b _ => compileIntBinop (compileExpr a) (compileExpr b)
  | .not a _ => compileNot (compileExpr a)
  | .floatArith _ a b _ => compileFloatBinop (compileExpr a) (compileExpr b)
  | .fneg a _ => compileFneg (compileExpr a)
  | .floatCmp _ a b _ => compileFloatCmp (compileExpr a) (compileExpr b)
  | .ftoi value _ intSize => compileFtoi (compileExpr value) intSize
  | .itof value _ floatSize => compileItof (compileExpr value) floatSize
  | .atomicLoad source size => do
      let m ← asHandle (← compileExpr source)
      load m size (.const 0)
  | .atomicStore target value size =>
      compileAtomicStore (compileExpr target) (compileExpr value) size
  | .cas addr expected new _ =>
      compileCas (compileExpr addr) (compileExpr expected) (compileExpr new)
  | .atomicRmw _ target value _ => compileAtomicRmw (compileExpr target) (compileExpr value)
  | .spawn pattern args => compileSpawn pattern args.length fun buffer => compileSpawnArgs buffer 0 args
  | .wait handle => compileWait handle
  | .channel _ capacity => compileChannel (compileExpr capacity)
  | .channelReceive channel => compileChannelReceive channel

def compileOffset : Option Expr → Draft Distance
  | none => return .const 0
  | some offset => do
      match offset.evalConstInt with
      | some n => return .const n.toNat
      | none => return .dynamic (← asInt (← compileExpr offset))

def compileArgs : List Expr → Draft Unit
  | [] => return ()
  | arg :: rest => do
      let _ ← immediateToHandle (← compileExpr arg)
      compileArgs rest

def compileSpawnArgs (buffer : MemoryShape) (i : Nat) : List Expr → Draft Unit
  | [] => return ()
  | arg :: rest => do
      let val ← spawnArg (← compileExpr arg)
      store buffer (.int val) 8 (.const (i * 8))
      compileSpawnArgs buffer (i + 1) rest

end

end Draft

end Sigil
