import Sigil.Codegen.Builder

/-!
# Code generation for expressions

`compileExpr` and what it calls. Operands are generated left to right; an integer
operation works at the width of its wider operand, whatever size it declares.
-/

namespace Sigil

def IntOp.ofArith : IntArith → IntOp
  | .add => .add
  | .sub => .sub
  | .mul => .mul
  | .div => .sdiv
  | .mod => .srem

def IntOp.ofBitwise : Bitwise → IntOp
  | .and => .and
  | .or => .or
  | .xor => .xor
  | .shl => .shl
  | .shr => .lshr
  | .sar => .ashr

def IntPredicate.ofComparison : Comparison → IntPredicate
  | .eq => .eq
  | .ne => .ne
  | .lt => .slt
  | .gt => .sgt
  | .le => .sle
  | .ge => .sge

namespace Gen

/-- A length-prefixed constant of the module. -/
def compileString (s : String) : Gen SigilValue := do
  let prefixed := (List.range 8).map fun i => UInt8.ofNat (s.utf8ByteSize / 2 ^ (8 * i))
  let bytes := prefixed ++ s.toUTF8.toList
  let cg ← get
  modify fun cg => { cg with globals := cg.globals ++ [bytes] }
  return .handle ⟨.global cg.globals.length, bytes.length, .string⟩

/-- A field of a CALL result. A `string` slot holds a pointer, which is loaded. -/
def compileField (base : Expr) (field : String) : Gen SigilValue := do
  match base with
  | .var baseName => match (← get).callOutputs.lookup baseName with
    | none => throw (.undefinedField baseName field)
    | some outputs => do
        let handle ← getField outputs field
        if handle.typ = .string then
          return .handle ⟨← buildPtr (.loadPtr handle.ptr), 0, .string⟩
        else return .handle handle
  | _ => throw (.typeError "Field access base must be variable")

def compileIntBinop (op : IntOp) (a b : Gen SigilValue) : Gen SigilValue := do
  let av ← asInt (← a)
  let bv ← asInt (← b)
  let (av, bv) ← normalizeIntTypes av bv
  return .immediate (← buildInt av.width (.intOp op av bv))

def compileIntCmp (pred : IntPredicate) (a b : Gen SigilValue) : Gen SigilValue := do
  let av ← asInt (← a)
  let bv ← asInt (← b)
  let (av, bv) ← normalizeIntTypes av bv
  let cmp ← buildInt 1 (.icmp pred av bv)
  return .immediate (← buildInt 64 (.zext cmp 64))

def compileFloatBinop (op : FloatArith) (a b : Gen SigilValue) : Gen SigilValue := do
  let av ← asFloat (← a)
  let bv ← asFloat (← b)
  return .float (← buildFloat av.width (.floatOp op av bv))

def compileFloatCmp (pred : Comparison) (a b : Gen SigilValue) : Gen SigilValue := do
  let av ← asFloat (← a)
  let bv ← asFloat (← b)
  let cmp ← buildInt 1 (.fcmp pred av bv)
  return .immediate (← buildInt 64 (.zext cmp 64))

/-- INEG subtracts from a 64-bit zero. -/
def compileIneg (a : Gen SigilValue) : Gen SigilValue := do
  let av ← asInt (← a)
  return .immediate (← buildInt 64 (.intOp .sub (i64 0) av))

def compileNot (a : Gen SigilValue) : Gen SigilValue := do
  let av ← asInt (← a)
  return .immediate (← buildInt av.width (.not av))

def compileFneg (a : Gen SigilValue) : Gen SigilValue := do
  let av ← asFloat (← a)
  return .float (← buildFloat av.width (.fneg av))

def compileFtoi (a : Gen SigilValue) (intSize : Nat) : Gen SigilValue := do
  let fv ← asFloat (← a)
  return .immediate (← buildInt (intWidth intSize) (.fptosi fv (intWidth intSize)))

def compileItof (a : Gen SigilValue) (floatSize : Nat) : Gen SigilValue := do
  let iv ← asInt (← a)
  let width := if floatSize = 4 then 32 else 64
  return .float (← buildFloat width (.sitofp iv width))

def compileAtomicStore (target value : Gen SigilValue) (size : Nat) : Gen SigilValue := do
  let handle ← asHandle (← target)
  let val ← value
  store handle val size (.const 0)
  return val

/-- CAS. The builder refuses operands of different widths. -/
def compileCas (addr expected new : Gen SigilValue) : Gen SigilValue := do
  let handle ← asHandle (← addr)
  let exp ← asInt (← expected)
  let newVal ← asInt (← new)
  if exp.width ≠ newVal.width then
    throw (.llvmError "The value to compare against and the value to replace with must have the same type.")
  let result ← build (.cmpxchg handle.ptr exp newVal)
  let success ← buildInt 1 (.extractSuccess result)
  return .immediate (← buildInt 64 (.zext success 64))

/-- ATOMIC_ADD and ATOMIC_SUB. The builder takes widths that are a power of two of at
least 8. -/
def compileAtomicRmw (op : AtomicRmw) (target value : Gen SigilValue) : Gen SigilValue := do
  let handle ← asHandle (← target)
  let val ← asInt (← value)
  if val.width < 8 ∨ ¬ val.width.isPowerOfTwo then
    throw (.llvmError "The bitwidth of value must be a power of 2 and greater than 8.")
  return .immediate (← buildInt val.width (.atomicRmw op handle.ptr val))

/-- The 8 bytes in which SPAWN passes an argument. -/
def spawnArg : SigilValue → Gen IntValue
  | .handle h => buildInt 64 (.ptrtoint h.ptr)
  | .immediate i => return i
  | .float f => buildInt 64 (.bitcast f)

/-- The size of the buffer SPAWN passes: the memory of the pattern, or 8 bytes an
argument. -/
def spawnBufferSize (cg : CodeGen) (pattern : String) (argCount : Nat) : Nat :=
  match (cg.behaviorSigs.lookup pattern).bind fun sig => sig.inputSizes.head? with
  | some memorySize => if memorySize > 0 then memorySize else argCount * 8
  | none => argCount * 8

def compileSpawn (pattern : String) (argCount : Nat) (args : Handle → Gen Unit) :
    Gen SigilValue := do
  declare "sigil_spawn"
  let cg ← get
  if symbolOf pattern ∉ cg.moduleFns then throw (.undefinedBehavior pattern)
  let bufferSize := spawnBufferSize cg pattern argCount
  let argsBuf ← allocHandle bufferSize .bytes
  args argsBuf
  let passed := [.ptr (.function (symbolOf pattern)), .ptr argsBuf.ptr, .int (i64 bufferSize)]
  return .immediate (← buildInt 64 (.call "sigil_spawn" passed))

/-- WAIT reads its handle past any slot and yields zero. -/
def compileWait (handleName : String) : Gen SigilValue := do
  declare "sigil_wait"
  let handle ← asInt (← getBinding handleName)
  let _ ← build (.call "sigil_wait" [.int handle, .ptr .null, .int (i64 0)])
  return .immediate (i64 0)

def compileChannel (capacity : Gen SigilValue) : Gen SigilValue := do
  declare "sigil_channel_create"
  let cap ← asInt (← capacity)
  return .immediate (← buildInt 64 (.call "sigil_channel_create" [.int (i64 8), .int cap]))

def compileChannelReceive (channelName : String) : Gen SigilValue := do
  declare "sigil_channel_receive"
  let channel ← asInt (← getBinding channelName)
  let buffer ← allocHandle 8 .int
  let _ ← build (.call "sigil_channel_receive" [.int channel, .ptr buffer.ptr])
  return .immediate (← buildInt 64 (.load buffer.ptr 64))

/-- The function a CALL calls. -/
def callee (behavior : String) : Gen String := do
  let cg ← get
  match cg.behaviorFns.lookup behavior with
  | some symbol => return symbol
  | none =>
      if symbolOf behavior ∈ cg.moduleFns then return symbolOf behavior
      else throw (.undefinedBehavior behavior)

/-- The output slots of a behavior; none where its signature is not known. -/
def outputsOf (cg : CodeGen) (behavior : String) : List OutputSlot :=
  match cg.behaviorSigs.lookup behavior with
  | some sig => sig.outputs
  | none => []

/-- The pointers to the output slots in a buffer. -/
def slotPointers (buffer : Handle) : List OutputSlot → Gen (List CallArg)
  | [] => return []
  | slot :: rest => do
      let ptr ← if slot.offset > 0 then buildPtr (.gep buffer.ptr (i64 slot.offset))
        else pure buffer.ptr
      return .ptr ptr :: (← slotPointers buffer rest)

/-- CALL: the inputs, then a pointer to each output in one buffer. -/
def compileCall (behavior : String) (args : Gen (List CallArg)) : Gen SigilValue := do
  let symbol ← callee behavior
  let slots := outputsOf (← get) behavior
  let inputs ← args
  let totalSize := (slots.map OutputSlot.size).sum
  if totalSize > 0 then do
    let buffer ← scopeAllocHandle totalSize .bytes
    let outputs ← slotPointers buffer slots
    let _ ← build (.call symbol (inputs ++ outputs))
    modify fun cg =>
      { cg with callOutputs := cg.callOutputs.insert "__pending" ⟨buffer, slots⟩ }
    return .handle buffer
  else do
    let _ ← build (.call symbol inputs)
    return .immediate (i64 0)

mutual

def compileExpr : Expr → Gen SigilValue
  | .intLit n => return .immediate (i64 n.toInt)
  | .floatLit bits => return .float (.const bits)
  | .stringLit s => compileString s
  | .var name => getVar name
  | .field base field => compileField base field
  | .alloc size typ _ => do
      let bytes := (size.evalConstInt.map BitVec.toNat).getD 64
      return .handle (← scopeAllocHandle bytes (.ofAst typ))
  | .load source size offset => do
      let handle ← derefHandle "LOAD source" (← compileExpr source)
      load handle size (← compileOffset offset)
  | .call behavior args => compileCall behavior (compileArgs args)
  | .intArith op a b _ => compileIntBinop (.ofArith op) (compileExpr a) (compileExpr b)
  | .ineg a _ => compileIneg (compileExpr a)
  | .intCmp op a b _ => compileIntCmp (.ofComparison op) (compileExpr a) (compileExpr b)
  | .bitwise op a b _ => compileIntBinop (.ofBitwise op) (compileExpr a) (compileExpr b)
  | .not a _ => compileNot (compileExpr a)
  | .floatArith op a b _ => compileFloatBinop op (compileExpr a) (compileExpr b)
  | .fneg a _ => compileFneg (compileExpr a)
  | .floatCmp op a b _ => compileFloatCmp op (compileExpr a) (compileExpr b)
  | .ftoi value _ intSize => compileFtoi (compileExpr value) intSize
  | .itof value _ floatSize => compileItof (compileExpr value) floatSize
  | .atomicLoad source size => do
      let handle ← asHandle (← compileExpr source)
      load handle size (.const 0)
  | .atomicStore target value size =>
      compileAtomicStore (compileExpr target) (compileExpr value) size
  | .cas addr expected new _ =>
      compileCas (compileExpr addr) (compileExpr expected) (compileExpr new)
  | .atomicRmw op target value _ => compileAtomicRmw op (compileExpr target) (compileExpr value)
  | .spawn pattern args => compileSpawn pattern args.length fun buffer => compileSpawnArgs buffer 0 args
  | .wait handle => compileWait handle
  | .channel _ capacity => compileChannel (compileExpr capacity)
  | .channelReceive channel => compileChannelReceive channel

/-- The offset of a LOAD or STORE; only a literal is a constant. -/
def compileOffset : Option Expr → Gen Offset
  | none => return .const 0
  | some offset => do
      match offset.evalConstInt with
      | some n => return .const n.toNat
      | none => return .dynamic (← asInt (← compileExpr offset))

/-- The arguments of a CALL, each passed as a pointer. -/
def compileArgs : List Expr → Gen (List CallArg)
  | [] => return []
  | arg :: rest => do
      let handle ← immediateToHandle (← compileExpr arg)
      return .ptr handle.ptr :: (← compileArgs rest)

/-- The arguments of a SPAWN from position `i` on, stored in its buffer. -/
def compileSpawnArgs (buffer : Handle) (i : Nat) : List Expr → Gen Unit
  | [] => return ()
  | arg :: rest => do
      let val ← spawnArg (← compileExpr arg)
      store buffer (.immediate val) 8 (.const (i * 8))
      compileSpawnArgs buffer (i + 1) rest

end

end Gen

end Sigil
