import Sigil.Stdlib.Sha256

/-!
# Words in registers

A register of 64 bits holds a word of 32 bits. The masked operations of `sha256` are the
operations of the words.
-/

namespace Sigil.Stdlib

open Flow Flow.Sha256

variable {x y z : Word} {r : Register} {b : UInt8} {v i j k n : Nat}

/-- A register that holds a word. -/
def held (x : Word) : Register := x.setWidth 64

section Masks

/-- Masking keeps the low word. -/
theorem and_M (r : Register) : r &&& M = held (r.setWidth 32) := by
  apply BitVec.eq_of_toNat_eq
  have mask : (M : Register).toNat = 2 ^ 32 - 1 := rfl
  rw [BitVec.toNat_and, mask, Nat.and_two_pow_sub_one_eq_mod, held, BitVec.toNat_setWidth,
    BitVec.toNat_setWidth]
  omega

/-- The low word of a held word is the word. -/
@[simp] theorem setWidth_held : (held x).setWidth 32 = x := by simp [held]

/-- Masking changes nothing in a held word. -/
@[simp] theorem held_and_M : held x &&& M = held x := by rw [and_M, setWidth_held]

/-- A held word is its number. -/
@[simp] theorem toNat_held : (held x).toNat = x.toNat := by
  rw [held, BitVec.toNat_setWidth_of_le (by decide)]

end Masks

section Operations

/-! The operations of the words in registers. -/

/-- Held words are met as words. -/
@[simp] theorem held_and : held x &&& held y = held (x &&& y) := by simp [held]

/-- Held words are added bit by bit as words. -/
@[simp] theorem held_xor : held x ^^^ held y = held (x ^^^ y) := by simp [held]

/-- Held words are shifted down as words. -/
@[simp] theorem held_shiftRight : held x >>> k = held (x >>> k) := by
  apply BitVec.eq_of_toNat_eq
  simp

/-- The complement of a held word under the mask. -/
@[simp] theorem held_not : held x ^^^ M = held (~~~x) := by
  have mask : M = held (BitVec.allOnes 32) := rfl
  rw [mask, held_xor, BitVec.xor_allOnes]

/-- A rotation made of two shifts. -/
theorem held_rotateRight (sum : k + j = 32) (positive : 0 < j) :
    (held x >>> k ||| held x <<< j) &&& M = held (x.rotateRight k) := by
  rw [and_M]
  congr 1
  ext i inside
  have left : 32 - k = j := by omega
  simp only [BitVec.getElem_setWidth, BitVec.getLsbD_or, BitVec.getLsbD_ushiftRight,
    BitVec.getLsbD_shiftLeft,
    BitVec.getElem_rotateRight, Nat.mod_eq_of_lt (show k < 32 by omega), held,
      BitVec.getLsbD_setWidth, left]
  by_cases low : i < j
  · have near : k + i < 64 := by omega
    simp [low, near, BitVec.getLsbD_eq_getElem, show k + i < 32 by omega]
  · have near : i < 64 := by omega
    have far : x.getLsbD (k + i) = false := BitVec.getLsbD_of_ge x _ (by omega)
    have near' : i - j < 32 := by omega
    simp [low, near, far, BitVec.getLsbD_eq_getElem near', show i - j < 64 by omega]

/-- A sum of words, masked. -/
theorem held_add : (held x + held y) &&& M = held (x + y) := by
  rw [and_M, BitVec.setWidth_add _ _ (by decide), setWidth_held, setWidth_held]

end Operations

section Loads

/-- A word that is loaded and masked. -/
theorem signExtend_and_M : x.signExtend 64 &&& M = held x := by
  rw [and_M, setWidth_signExtend _ (by decide)]

/-- Words side by side are shifted and joined. -/
theorem setWidth_append {m n : Nat} (x : BitVec m) (y : BitVec n) :
    (x ++ y).setWidth 64 = x.setWidth 64 <<< n ||| y.setWidth 64 := by
  ext i inside
  simp only [BitVec.getElem_setWidth, BitVec.getLsbD_append, BitVec.getElem_or,
    BitVec.getElem_shiftLeft]
  by_cases low : i < n
  · simp [low]
  · simp [low, BitVec.getLsbD_of_ge y i (by omega)]

/-- Four bytes shifted together make the word they spell. -/
theorem held_append (b₀ b₁ b₂ b₃ : BitVec 8) :
    b₀.setWidth 64 <<< 24 ||| b₁.setWidth 64 <<< 16 ||| b₂.setWidth 64 <<< 8 ||| b₃.setWidth 64 =
      held (b₀ ++ b₁ ++ b₂ ++ b₃) := by
  unfold held
  rw [setWidth_append, setWidth_append, setWidth_append]
  simp only [BitVec.shiftLeft_or_distrib, ← BitVec.shiftLeft_add]

end Loads

end Sigil.Stdlib
