import Sigil.Codegen.Steps
import Sigil.Codegen.Appends

/-!
# Running emitted integer code

What the integer instructions of a block compute and where its terminator goes, over
the results that earlier instructions left.
-/

namespace Sigil

/-- The results of the instructions executed so far. -/
abbrev Results := Nat → Nat

/-- The value of an operand. -/
def IntValue.eval (results : Results) : (v : IntValue) → BitVec v.width
  | .const width n => BitVec.ofInt width n
  | .reg width id _ => BitVec.ofNat width (results id)

/-- A signed division has no result by zero, nor where the quotient of the least value by
-1 does not fit. -/
def divides {w : Nat} (a b : BitVec w) : Bool :=
  b != 0 && !(a == BitVec.intMin w && b == -1)

/-- The result of an instruction of two operands, where it is defined. -/
def IntOp.apply {w : Nat} (op : IntOp) (a b : BitVec w) : Option (BitVec w) :=
  match op with
  | .add => some (a + b)
  | .sub => some (a - b)
  | .mul => some (a * b)
  | .sdiv => if divides a b then some (a.sdiv b) else none
  | .srem => if divides a b then some (a.srem b) else none
  | .and => some (a &&& b)
  | .or => some (a ||| b)
  | .xor => some (a ^^^ b)
  | .shl => if b.toNat < w then some (a <<< b) else none
  | .lshr => if b.toNat < w then some (a >>> b) else none
  | .ashr => if b.toNat < w then some (a.sshiftRight b.toNat) else none

def IntPredicate.holds {w : Nat} (pred : IntPredicate) (a b : BitVec w) : Bool :=
  match pred with
  | .eq => a == b
  | .ne => a != b
  | .slt => a.slt b
  | .sgt => b.slt a
  | .sle => a.sle b
  | .sge => b.sle a
  | .ugt => b.ult a

/-- The result of an instruction on integers. Operands have one width. -/
def Instr.compute (results : Results) : Instr → Option Nat
  | .intOp op a b =>
      if same : b.width = a.width then
        (op.apply (a.eval results) ((b.eval results).cast same)).map BitVec.toNat
      else none
  | .icmp pred a b =>
      if same : b.width = a.width then
        some (pred.holds (a.eval results) ((b.eval results).cast same)).toNat
      else none
  | .not a => some (~~~ a.eval results).toNat
  | .sext a width => some ((a.eval results).signExtend width).toNat
  | .zext a width | .trunc a width => some ((a.eval results).setWidth width).toNat
  | _ => none

/-- The instructions by which LOAD and STORE touch memory. -/
def Instr.isAccess : Instr → Bool
  | .load _ _ | .loadFloat _ _ | .store _ _ | .storeFloat _ _ => true
  | _ => false

/-- Execute the items of a block up to its terminator. -/
def runItems (results : Results) : List Item → Option (Results × BlockEnd)
  | [] => none
  | .term e :: _ => some (results, e)
  | .instr id i :: rest | .folded id i :: rest =>
      match i.compute results with
      | some n => runItems (Function.update results id n) rest
      | none => none

/-- The block a terminator hands control to. -/
def BlockEnd.target (results : Results) : BlockEnd → Option Nat
  | .br b => some b
  | .condBr condition onTrue onFalse =>
      some (if condition.eval results = 0 then onFalse else onTrue)
  | .ret _ | .unreachable => none

/-- The block that the items of a block lead to. -/
def nextBlock (results : Results) (items : List Item) : Option Nat :=
  (runItems results items).bind fun p => p.2.target p.1

/-- What was emitted between `s` and `t` takes control from the insertion point of `s`
to that of `t`. -/
def Passes (results : Results) (s t : CodeGen) : Prop :=
  t.current = s.current ∨ nextBlock results (s.codeTo t) = some t.current

section Run

variable {results : Results} {i : Instr} {id n : Nat} {rest : List Item} {e : BlockEnd}

/-- A register has the result written to it. -/
@[simp] theorem IntValue.eval_reg (width id : Nat) (folded : Bool) :
    (IntValue.reg width id folded).eval results = BitVec.ofNat width (results id) := rfl

/-- A constant has its value. -/
@[simp] theorem IntValue.eval_const (width : Nat) (n : Int) :
    (IntValue.const width n).eval results = BitVec.ofInt width n := rfl

/-- At a terminator the block is done. -/
@[simp] theorem runItems_term : runItems results (.term e :: rest) = some (results, e) := rfl

/-- A branch on a bit just computed. -/
theorem BlockEnd.target_bit {bit folded : Bool} {onTrue onFalse : Nat} :
    (BlockEnd.condBr (.reg 1 id folded) onTrue onFalse).target
      (Function.update results id bit.toNat) = some (if bit then onTrue else onFalse) := by
  change some (if BitVec.ofNat 1 (Function.update results id bit.toNat id) = 0 then onFalse
    else onTrue) = _
  rw [Function.update_self]
  cases bit <;> rfl

/-- A computed instruction, folded or not, leaves its result. -/
theorem runItems_computed (computed : i.compute results = some n) :
    runItems results ((if i.folds then .folded id i else .instr id i) :: rest) =
      runItems (Function.update results id n) rest := by
  split <;> simp [runItems, computed]

end Run

end Sigil
