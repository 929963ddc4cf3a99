import Sigil.Ast

/-!
# Code generation values

The values code generation passes around: integers with a bit width, floats,
pointers, handles with the size and interpretation of their memory. A value is a
constant or the result of what the builder was asked for under some number: an
instruction, or a constant where the operands are constants.
-/

namespace Sigil

/-- Why code generation returns nothing: an error, or a panic of the LLVM wrapper. -/
inductive CodeGenError where
  | typeError (message : String)
  | undefinedVariable (name : String)
  | undefinedBehavior (name : String)
  | undefinedLabel (name : String)
  | undefinedField (base field : String)
  | llvmError (message : String)
  | panicked (message : String)
  deriving DecidableEq, Repr

/-- Interpretation of the memory behind a handle. -/
inductive HandleType where
  | int
  | float
  | bytes
  | string
  deriving DecidableEq, Repr

def HandleType.ofAst : AstType → HandleType
  | .int => .int
  | .float => .float
  | .bytes => .bytes
  | .string => .string

/-- An integer of some width: a constant, taken modulo the width, or a result, which
may be folded into a constant. -/
inductive IntValue where
  | const (width : Nat) (n : Int)
  | reg (width id : Nat) (folded : Bool)
  deriving DecidableEq, Repr

namespace IntValue

def width : IntValue → Nat
  | const width _ | reg width _ _ => width

def isConst : IntValue → Bool
  | const _ _ => true
  | reg _ _ folded => folded

end IntValue

/-- A float of 32 or 64 bits: a constant double or a result. -/
inductive FloatValue where
  | const (bits : BitVec 64)
  | reg (width id : Nat) (folded : Bool)
  deriving DecidableEq, Repr

namespace FloatValue

def width : FloatValue → Nat
  | const _ => 64
  | reg width _ _ => width

def isConst : FloatValue → Bool
  | const _ => true
  | reg _ _ folded => folded

end FloatValue

/-- A pointer: null, a parameter of the function, a string constant, a function, or
a result. -/
inductive PtrValue where
  | null
  | param (i : Nat)
  | global (i : Nat)
  | function (symbol : String)
  | reg (id : Nat) (folded : Bool)
  deriving DecidableEq, Repr

def PtrValue.isConst : PtrValue → Bool
  | null | global _ | function _ => true
  | param _ => false
  | reg _ folded => folded

/-- Size zero stands for an unknown size. -/
structure Handle where
  ptr : PtrValue
  size : Nat
  typ : HandleType
  deriving DecidableEq, Repr

/-- A value as the generator holds it. -/
inductive SigilValue where
  | handle (h : Handle)
  | immediate (i : IntValue)
  | float (f : FloatValue)
  deriving DecidableEq, Repr

namespace SigilValue

def asHandle : SigilValue → Except CodeGenError Handle
  | handle h => .ok h
  | immediate _ | float _ => .error (.typeError "Expected handle, got immediate")

def asInt : SigilValue → Except CodeGenError IntValue
  | immediate i => .ok i
  | handle h => .error (.typeError s!"Expected int immediate, got handle (size={h.size})")
  | float _ => .error (.typeError "Expected int immediate, got float")

def asFloat : SigilValue → Except CodeGenError FloatValue
  | float f => .ok f
  | handle _ | immediate _ => .error (.typeError "Expected float immediate")

end SigilValue

/-- An output of a callee in the buffer of its CALL. -/
structure OutputSlot where
  name : String
  offset : Nat
  size : Nat
  typ : HandleType
  deriving DecidableEq, Repr

/-- The buffer of a CALL and its layout. -/
structure CallOutputs where
  buffer : Handle
  slots : List OutputSlot
  deriving DecidableEq, Repr

/-- Calling convention of a behavior or pattern. -/
structure BehaviorSig where
  name : String
  inputSizes : List Nat
  outputs : List OutputSlot
  deriving DecidableEq, Repr

/-- Offset of a LOAD or STORE. -/
inductive Offset where
  | const (n : Nat)
  | dynamic (i : IntValue)
  deriving DecidableEq, Repr

/-- Bytes a parameter takes at a call: a string is passed as a pointer. -/
def Parameter.physSize (param : Parameter) : Nat :=
  match param.typ with
  | .string => 8
  | _ => param.size

/-- Layout of the outputs of a contract from an offset on. -/
def outputSlotsFrom (offset : Nat) : List Parameter → List OutputSlot
  | [] => []
  | output :: rest =>
      ⟨output.name, offset, output.physSize, .ofAst output.typ⟩ ::
        outputSlotsFrom (offset + output.physSize) rest

def outputSlots (contract : Contract) : List OutputSlot :=
  outputSlotsFrom 0 contract.outputs

def BehaviorSig.ofContract (name : String) (contract : Contract) : BehaviorSig where
  name := name
  inputSizes := contract.inputs.map Parameter.physSize
  outputs := outputSlots contract

/-- Integer instructions that take two operands of one width. -/
inductive IntOp where
  | add
  | sub
  | mul
  | sdiv
  | srem
  | and
  | or
  | xor
  | shl
  | lshr
  | ashr
  deriving DecidableEq, Repr

/-- The predicates of integer comparisons. -/
inductive IntPredicate where
  | eq
  | ne
  | slt
  | sgt
  | sle
  | sge
  | ugt
  deriving DecidableEq, Repr

/-- An argument of a call. -/
inductive CallArg where
  | int (i : IntValue)
  | ptr (p : PtrValue)
  deriving DecidableEq, Repr

/-- What the builder emits. -/
inductive Instr where
  | intOp (op : IntOp) (a b : IntValue)
  | icmp (pred : IntPredicate) (a b : IntValue)
  | not (a : IntValue)
  | sext (a : IntValue) (width : Nat)
  | zext (a : IntValue) (width : Nat)
  | trunc (a : IntValue) (width : Nat)
  | floatOp (op : FloatArith) (a b : FloatValue)
  | fneg (a : FloatValue)
  | fcmp (pred : Comparison) (a b : FloatValue)
  | fptosi (a : FloatValue) (width : Nat)
  | sitofp (a : IntValue) (width : Nat)
  | inttoptr (a : IntValue)
  | ptrtoint (p : PtrValue)
  | bitcast (a : FloatValue)
  | alloca (bytes : Nat)
  | load (p : PtrValue) (width : Nat)
  | loadFloat (p : PtrValue) (width : Nat)
  | loadPtr (p : PtrValue)
  | store (p : PtrValue) (a : IntValue)
  | storeFloat (p : PtrValue) (a : FloatValue)
  | gep (p : PtrValue) (index : IntValue)
  | memcpy (dest src : PtrValue) (bytes : IntValue)
  | call (callee : String) (args : List CallArg)
  | cmpxchg (p : PtrValue) (expected new : IntValue)
  | extractSuccess (id : Nat)
  | atomicRmw (op : AtomicRmw) (p : PtrValue) (a : IntValue)
  deriving DecidableEq, Repr

/-- Whether the builder folds an instruction: it reads no memory and its operands are
constants. -/
def Instr.folds : Instr → Bool
  | intOp _ a b | icmp _ a b => a.isConst && b.isConst
  | floatOp _ a b | fcmp _ a b => a.isConst && b.isConst
  | not a | sext a _ | zext a _ | trunc a _ | sitofp a _ | inttoptr a => a.isConst
  | fneg a | fptosi a _ | bitcast a => a.isConst
  | ptrtoint p => p.isConst
  | gep p index => p.isConst && index.isConst
  | alloca _ | load _ _ | loadFloat _ _ | loadPtr _ | store _ _ | storeFloat _ _ | memcpy _ _ _
  | call _ _ | cmpxchg _ _ _ | extractSuccess _ | atomicRmw _ _ _ => false

/-- How a block hands control on. Blocks are indices of the function. -/
inductive BlockEnd where
  | br (target : Nat)
  | condBr (condition : IntValue) (onTrue onFalse : Nat)
  | ret (status : Option IntValue)
  | unreachable
  deriving DecidableEq, Repr

/-- What the builder did in a block: put an instruction with the number of its
result there, fold one into a constant, or put a terminator there. -/
inductive Item where
  | instr (id : Nat) (i : Instr)
  | folded (id : Nat) (i : Instr)
  | term (t : BlockEnd)
  deriving DecidableEq, Repr

namespace Item

def isTerm : Item → Bool
  | instr _ _ | folded _ _ => false
  | term _ => true

/-- Whether an item is part of the block. -/
def isEmitted : Item → Bool
  | instr _ _ | term _ => true
  | folded _ _ => false

end Item

/-- A block as it was built, terminators wherever they were put. -/
structure EmittedBlock where
  name : String
  items : List Item := []
  deriving DecidableEq, Repr

/-- The instructions and terminators of a block. -/
def EmittedBlock.emitted (block : EmittedBlock) : List Item :=
  block.items.filter Item.isEmitted

end Sigil
