import Sigil.Ast

/-!
# Reference semantics of integer expressions

What an integer expression is worth by the language reference: operands are signed
two's-complement integers, and an operation of a declared size yields its
mathematical result wrapped to that size.
-/

namespace Sigil

/-- An integer wrapped to a number of bits, as a signed number. -/
def wrap (bits : Nat) (n : Int) : Int := n.bmod (2 ^ bits)

/-- The result of an arithmetic operation at a number of bits. -/
def IntArith.result (bits : Nat) : IntArith → Int → Int → Option Int
  | add, a, b => some (wrap bits (a + b))
  | sub, a, b => some (wrap bits (a - b))
  | mul, a, b => some (wrap bits (a * b))
  | div, a, b => if b = 0 then none else some (wrap bits (a.tdiv b))
  | mod, a, b => if b = 0 then none else some (wrap bits (a.tmod b))

/-- The result of a bitwise operation or shift at a number of bits. A shift count is
below that number. -/
def Bitwise.result (bits : Nat) : Bitwise → Int → Int → Option Int
  | and, a, b => some (BitVec.ofInt bits a &&& BitVec.ofInt bits b).toInt
  | or, a, b => some (BitVec.ofInt bits a ||| BitVec.ofInt bits b).toInt
  | xor, a, b => some (BitVec.ofInt bits a ^^^ BitVec.ofInt bits b).toInt
  | shl, a, n => if 0 ≤ n ∧ n < bits then some (wrap bits (a * 2 ^ n.toNat)) else none
  | shr, a, n => if 0 ≤ n ∧ n < bits then some (BitVec.ofInt bits a >>> n.toNat).toInt else none
  | sar, a, n => if 0 ≤ n ∧ n < bits then some (wrap bits (a / 2 ^ n.toNat)) else none

/-- Whether a comparison holds of two signed integers. -/
def Comparison.holds : Comparison → Int → Int → Bool
  | eq, a, b => a = b
  | ne, a, b => a ≠ b
  | lt, a, b => a < b
  | gt, a, b => a > b
  | le, a, b => a ≤ b
  | ge, a, b => a ≥ b

/-- Memory, a byte at each address. -/
abbrev Bytes := BitVec 64 → BitVec 8

/-- The unsigned little-endian integer in some bytes of memory. -/
def Bytes.read (memory : Bytes) (address : BitVec 64) : Nat → Nat
  | 0 => 0
  | n + 1 => (memory address).toNat + 256 * Bytes.read memory (address + 1) n

/-- What an expression can read: the integers and handles of the variables, and
memory. A handle is an address and the size of the memory there, zero if that is
not known. -/
structure Valuation where
  int : String → Option Int
  handle : String → Option (BitVec 64 × Nat)
  memory : Bytes

/-- An access lies within memory of a size, if the size is known. -/
def withinSize (known : Nat) (offset : Int) (size : Nat) : Prop :=
  known = 0 ∨ (0 ≤ offset ∧ offset + size ≤ known)

instance (known : Nat) (offset : Int) (size : Nat) : Decidable (withinSize known offset size) :=
  inferInstanceAs (Decidable (_ ∨ _))

namespace Valuation

/-- Where a LOAD reads: the memory of a handle, or else the value of its source as an
address, of memory of unknown size. -/
def place (σ : Valuation) (source : Expr) (value : Option Int) : Option (BitVec 64 × Nat) :=
  let address := value.map fun n => (BitVec.ofInt 64 n, 0)
  match source with
  | .var name => σ.handle name <|> address
  | _ => address

/-- The signed integer an access reads. -/
def read (σ : Valuation) (place : BitVec 64 × Nat) (size : Nat) (offset : Int) : Option Int :=
  if withinSize place.2 offset size then
    some (wrap (8 * size) (σ.memory.read (place.1 + BitVec.ofInt 64 offset) size))
  else none

end Valuation

/-- The value of an integer expression, where it has one. -/
def Expr.value (σ : Valuation) : Expr → Option Int
  | intLit n => some n.toInt
  | var name => σ.int name
  | load source size none => do
      σ.read (← σ.place source (source.value σ)) size 0
  | load source size (some offset) => do
      σ.read (← σ.place source (source.value σ)) size (← offset.value σ)
  | intArith op a b size => do op.result (8 * size) (← a.value σ) (← b.value σ)
  | ineg a size => do return wrap (8 * size) (-(← a.value σ))
  | intCmp op a b _ => do return if op.holds (← a.value σ) (← b.value σ) then 1 else 0
  | bitwise op a b size => do op.result (8 * size) (← a.value σ) (← b.value σ)
  | not a size => do return wrap (8 * size) (-(← a.value σ) - 1)
  | _ => none

end Sigil
