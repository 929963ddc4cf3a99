import Sigil.Flow.Loops

/-!
# Registers of the behaviors

The 64-bit registers of a behavior, signed comparisons, and bytes that are loaded and stored.
-/

namespace Sigil.Stdlib

open Flow

abbrev Register := BitVec 64

section Comparisons

variable (x y : Register)

/-- `IGE` -/
def ige : Bool := y.sle x

/-- `ILE` -/
def ile : Bool := x.sle y

/-- `ILT` -/
def ilt : Bool := x.slt y

/-- The value of a comparison. -/
def flag (holds : Bool) : Register := if holds then 1 else 0

variable {x y}

/-- A small register is not negative. -/
theorem msb_eq_false (small : x.toNat < 2 ^ 63) : x.msb = false := by
  rw [BitVec.msb_eq_decide, decide_eq_false_iff_not]
  omega

/-- Small registers are compared as numbers. -/
theorem ige_eq (small : x.toNat < 2 ^ 63) (small' : y.toNat < 2 ^ 63) :
    ige x y = decide (y.toNat ≤ x.toNat) := by
  rw [ige, BitVec.sle_eq_decide, BitVec.toInt_eq_toNat_of_lt (by omega),
    BitVec.toInt_eq_toNat_of_lt (by omega)]
  simp

/-- Small registers are compared as numbers. -/
theorem ile_eq (small : x.toNat < 2 ^ 63) (small' : y.toNat < 2 ^ 63) :
    ile x y = decide (x.toNat ≤ y.toNat) :=
  ige_eq small' small

end Comparisons

section Bytes

variable {b : UInt8} {size : Nat} {a : Allocation size} {off : Register}

/-- A register that holds a byte. -/
def byteReg (b : UInt8) : Register := b.toBitVec.setWidth 64

/-- Masking with 255 keeps the low byte. -/
theorem and_255 (r : Register) : r &&& 255 = (r.setWidth 8).setWidth 64 := by
  apply BitVec.eq_of_toNat_eq
  have mask : (255 : Register).toNat = 2 ^ 8 - 1 := rfl
  rw [BitVec.toNat_and, mask, Nat.and_two_pow_sub_one_eq_mod, BitVec.toNat_setWidth,
    BitVec.toNat_setWidth]
  omega

/-- A byte is loaded with its sign. -/
theorem load_byte (inside : off.toNat < size) :
    a.load 1 off = some ((a.bytes off.toNat).toBitVec.signExtend 64) := by
  rw [Allocation.load_inside inside]
  simp [Buffer.load]

/-- A sign-extended word cut back is the word. -/
theorem setWidth_signExtend {m n : Nat} (x : BitVec m) (wider : m ≤ n) :
    (x.signExtend n).setWidth m = x := by
  ext i inside
  rw [BitVec.getElem_setWidth, BitVec.getLsbD_signExtend, if_pos inside,
    BitVec.getLsbD_eq_getElem inside]
  simp [Nat.lt_of_lt_of_le inside wider]

/-- Masking a sign-extended byte gives the byte register. -/
@[simp] theorem signExtend_and_255 : b.toBitVec.signExtend 64 &&& 255 = byteReg b := by
  rw [and_255, byteReg, setWidth_signExtend _ (by decide)]

/-- A byte that is loaded and stored stays what it is. -/
@[simp] theorem ofNat_signExtend : UInt8.ofNat (b.toBitVec.signExtend 64).toNat = b := by
  have low : (b.toBitVec.signExtend 64).toNat % 2 ^ 8 = b.toNat := by
    rw [← BitVec.toNat_setWidth, setWidth_signExtend _ (by decide)]
    rfl
  rw [← UInt8.toNat_inj, UInt8.toNat_ofNat', low]

/-- A byte register holds the byte. -/
@[simp] theorem toNat_byteReg : (byteReg b).toNat = b.toNat := by
  rw [byteReg, BitVec.toNat_setWidth_of_le (by decide)]
  rfl

/-- The byte of a byte register. -/
@[simp] theorem ofNat_byteReg : UInt8.ofNat (byteReg b).toNat = b := by simp

/-- What an INPUT or OUTPUT of eight bytes holds. -/
def intIn (a : Allocation 8) : Register := BitVec.ofNat 64 (a.bytes.load 0 8)

/-- The integer in a buffer is its eight bytes. -/
@[simp] theorem toNat_intIn {a : Allocation 8} : (intIn a).toNat = a.bytes.load 0 8 := by
  rw [intIn, BitVec.toNat_ofNat]
  exact Nat.mod_eq_of_lt (Buffer.load_lt.trans_le (by norm_num))

/-- Loading eight bytes gives the integer. -/
theorem load_intIn (a : Allocation 8) : a.load 8 0 = some (intIn a) := by
  rw [Allocation.load_inside (by decide)]
  exact congrArg some (BitVec.signExtend_eq _)

/-- Storing eight bytes puts the integer. -/
theorem store_int (a : Allocation 8) (r : Register) :
    a.store r 8 0 = some ⟨a.bytes.store 0 r.toNat 8⟩ :=
  Allocation.store_inside (by decide)

/-- An INPUT that holds a number. -/
def intOf (n : Nat) : Allocation 8 := ⟨Buffer.store (fun _ => 0) 0 n 8⟩

/-- The buffer of a small number holds it. -/
theorem load_intOf {n : Nat} (small : n < 256 ^ 8) : (intOf n).bytes.load 0 8 = n :=
    Buffer.load_store small

/-- A store outside the allocation aborts. -/
theorem store_outside {r : Register} (outside : size ≤ off.toNat) : a.store r 1 off = none :=
    if_neg (by omega)

end Bytes

/-- A loop that goes up to a bound runs its body for every count below. -/
theorem rounds_upto {σ : Type*} {count : σ → Register} {body : σ → Option σ} {bound : Register}
    {fuel n : Nat} {s : σ}
    {holds : Nat → σ → Prop} (counts : ∀ i s, holds i s → (count s).toNat = i)
      (upto : bound.toNat = n)
    (small : n < 2 ^ 63) (step : ∀ i < n, ∀ s, holds i s → ∃ s', body s = some s' ∧
      holds (i + 1) s')
    (start : holds 0 s) (enough : n < fuel) :
    ∃ s', rounds (fun s => ige (count s) bound) body fuel s = some s' ∧ holds n s' := by
  have test : ∀ i ≤ n, ∀ s, holds i s → ige (count s) bound = decide (n ≤ i) := by
    intro i le s now
    have counted := counts i s now
    rw [ige_eq (by omega) (by omega), counted, upto]
  refine rounds_counted (fun s now => ?_) (fun i below s now => ⟨?_, step i below s now⟩) start
    (Nat.zero_le n) enough
  · rw [test n (Nat.le_refl n) s now, decide_eq_true (Nat.le_refl n)]
  · rw [test i below.le s now, decide_eq_false (Nat.not_le_of_lt below)]

end Sigil.Stdlib
