import Sigil.Codegen.Machine

/-!
# What expressions and statements mean

Integers carry a width. An operation works at the width of its wider operand, a LOAD
reads as many bits as it declares, a comparison is a 64-bit truth value. Floats, calls
and the operations on tasks and channels are outside.
-/

namespace Sigil

/-- An integer with its width. -/
structure Quantity where
  width : Nat
  bits : BitVec width
  deriving DecidableEq

/-- What a name or an expression stands for. An address of memory of unknown size has
size zero. -/
inductive Datum where
  | int (n : Quantity)
  | memory (address : BitVec 64) (size : Nat) (typ : HandleType)
  deriving DecidableEq

/-- Why there is no value: the program aborts, or what it does is not defined. -/
inductive Fault where
  | aborted
  | undefined
  deriving DecidableEq

abbrev Meaning := Except Fault

/-- A value that is undefined where there is none. -/
def defined {α : Type} : Option α → Meaning α
  | some a => .ok a
  | none => .error .undefined

/-- A distance from the start of memory. -/
inductive Displacement where
  | fixed (n : Nat)
  | computed (n : Quantity)

namespace Quantity

/-- The integer at another width, cut off or extended with zeros. -/
def resize (n : Quantity) (width : Nat) : Quantity := ⟨width, n.bits.setWidth width⟩

/-- A truth value. -/
def ofBool (b : Bool) : Quantity := ⟨64, if b then 1 else 0⟩

end Quantity

/-- An operation at the width of the wider operand. -/
def IntOp.meaning (op : IntOp) : Datum → Datum → Meaning Datum
  | .int a, .int b =>
      let w := max a.width b.width
      (defined (op.apply (a.bits.signExtend w) (b.bits.signExtend w))).map fun bits => .int ⟨w, bits⟩
  | _, _ => .error .undefined

/-- A comparison at the width of the wider operand. -/
def IntPredicate.meaning (pred : IntPredicate) : Datum → Datum → Meaning Datum
  | .int a, .int b =>
      let w := max a.width b.width
      .ok (.int (.ofBool (pred.holds (a.bits.signExtend w) (b.bits.signExtend w))))
  | _, _ => .error .undefined

namespace Datum

/-- INEG is defined on 64 bits. -/
def neg : Datum → Meaning Datum
  | int a => if a.width = 64 then .ok (.int ⟨64, -a.bits.setWidth 64⟩) else .error .undefined
  | memory _ _ _ => .error .undefined

def not : Datum → Meaning Datum
  | int a => .ok (.int ⟨a.width, ~~~a.bits⟩)
  | memory _ _ _ => .error .undefined

/-- The memory a value points to: an integer is an address. -/
def place : Datum → Datum
  | int a => memory (a.bits.setWidth 64) 0 .int
  | d => d

/-- An integer as a distance. -/
def displacement : Datum → Meaning Displacement
  | int a => .ok (.computed a)
  | memory _ _ _ => .error .undefined

/-- The address of an access. Where the size of the memory is known, a computed distance
is checked: the access must end within the memory, the end taken modulo 2^64. -/
def locate (size : Nat) : Datum → Displacement → Meaning (BitVec 64)
  | memory address _ _, .fixed n => .ok (address + BitVec.ofNat 64 n)
  | memory address known _, .computed n =>
      if known = 0 then .ok (address + n.bits.signExtend 64)
      else if n.width ≠ 64 then .error .undefined
      else if (BitVec.ofNat 64 known).ult (n.bits.setWidth 64 + BitVec.ofNat 64 size) then
        .error .aborted
      else .ok (address + n.bits.signExtend 64)
  | int _, _ => .error .undefined

/-- LOAD of integers. -/
def fetch (space : AddressSpace) (size : Nat) (at_ : BitVec 64) : Datum → Meaning Datum
  | memory _ _ .float | int _ => .error .undefined
  | memory _ _ _ =>
      let w := Gen.intWidth size
      .ok (.int ⟨w, BitVec.ofNat w (space.read at_ (bytesOf w))⟩)

/-- The number a value is stored as: an integer at its declared size or an address. -/
def stored (size : Nat) : Datum → Nat
  | int a => (a.resize (Gen.intWidth size)).bits.toNat
  | memory address _ _ => (Quantity.resize ⟨64, address⟩ (Gen.intWidth size)).bits.toNat

/-- STORE of an integer or an address. -/
def put (space : AddressSpace) (size : Nat) (at_ : BitVec 64) (d : Datum) : AddressSpace :=
  space.write at_ (bytesOf (Gen.intWidth size)) (d.stored size)

/-- What SET makes of a value: the first bytes of memory. -/
def content (space : AddressSpace) : Datum → Meaning Datum
  | memory source size typ => (memory source size typ).fetch space (min size 8) source
  | int a => .ok (int a)

end Datum

/-- What each name stands for. -/
abbrev Readings := String → Option Datum

mutual

/-- The value of an expression. -/
def Expr.meaning (names : Readings) (space : AddressSpace) : Expr → Meaning Datum
  | .intLit n => .ok (.int ⟨64, n⟩)
  | .var name => defined (names name)
  | .load source size offset => do
      let place := (← source.meaning names space).place
      let distance ← displacementOf names space offset
      place.fetch space size (← place.locate size distance)
  | .intArith op a b _ => do
      (IntOp.ofArith op).meaning (← a.meaning names space) (← b.meaning names space)
  | .bitwise op a b _ => do
      (IntOp.ofBitwise op).meaning (← a.meaning names space) (← b.meaning names space)
  | .intCmp op a b _ => do
      (IntPredicate.ofComparison op).meaning (← a.meaning names space) (← b.meaning names space)
  | .ineg a _ => do (← a.meaning names space).neg
  | .not a _ => do (← a.meaning names space).not
  | _ => .error .undefined

/-- The distance a LOAD or STORE declares; only a literal is fixed. -/
def displacementOf (names : Readings) (space : AddressSpace) : Option Expr → Meaning Displacement
  | none => .ok (.fixed 0)
  | some offset => match offset.evalConstInt with
    | some n => .ok (.fixed n.toNat)
    | none => do (← offset.meaning names space).displacement

end

/-- What statements work on. -/
structure Situation where
  names : Readings
  space : AddressSpace

namespace Situation

/-- A name bound anew. -/
def bind (at_ : Situation) (name : String) (d : Datum) : Situation :=
  { at_ with names := Function.update at_.names name (some d) }

/-- STORE to a name. -/
def store (at_ : Situation) (target : String) (value : Expr) (size : Nat) (offset : Option Expr) :
    Meaning Situation := do
  let place := (← (Expr.var target).meaning at_.names at_.space).place
  let d ← value.meaning at_.names at_.space
  let distance ← displacementOf at_.names at_.space offset
  return { at_ with space := d.put at_.space size (← place.locate size distance) }

/-- A value given to a name: the address of a string, an integer or the first bytes of
other memory go into the memory of that name, any other name is bound. -/
def assign (at_ : Situation) (target : String) (d : Datum) : Meaning Situation :=
  match at_.names target with
  | some (.memory address size typ) =>
      if typ = .string then .ok { at_ with space := d.put at_.space 8 address }
      else do return { at_ with space := (← d.content at_.space).put at_.space size address }
  | _ => .ok (at_.bind target d)

/-- SET of a name. -/
def set (at_ : Situation) (target : String) (value : Expr) : Meaning Situation := do
  at_.assign target (← value.meaning at_.names at_.space)

end Situation

/-- What a statement without jumps does. -/
def Node.meaning : Node → Situation → Meaning Situation
  | .assignment _ target expr, at_ => do
      return at_.bind target (← expr.meaning at_.names at_.space)
  | .store _ target value size offset, at_ => at_.store target value size offset
  | .set _ target value, at_ => at_.set target value
  | .discard _ _, at_ => .ok at_
  | _, _ => .error .undefined

/-- What statements do one after the other. -/
def nodesMeaning : List Node → Situation → Meaning Situation
  | [], at_ => .ok at_
  | node :: rest, at_ => do nodesMeaning rest (← node.meaning at_)

end Sigil
