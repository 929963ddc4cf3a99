import Sigil.Flow.Crc
import Sigil.Stdlib.Scan

/-!
# The behavior `crc32`

The check of a message in registers of 64 bits, a byte at a time.
-/

namespace Sigil.Stdlib

open Flow

/-- The blocks `bits` to `nextbit`: the count of the bits and the register -/
def crcBits (s : Register × Register) : Option (Register × Register ⊕ Register) :=
  if ige s.1 8 then some (.inr s.2)
  else
    let lsb := s.2 &&& 1
    if lsb = 1 then
      let sh := s.2 >>> 1
      some (.inl (s.1 + 1, sh ^^^ 3988292384))
    else some (.inl (s.1 + 1, s.2 >>> 1))

/-- The blocks `loop` to `bitsdone`: the count of the bytes and the register -/
def crcBody (fuel : Nat) (data : Allocation 65536) (lenv : Register) (s : Register × Register) :
    Option (Register × Register ⊕ Register) := do
  if ige s.1 lenv then return .inr s.2
  let b ← data.load 1 s.1
  let bu := b &&& 255
  let c := s.2 ^^^ bu
  let c ← exits crcBits fuel (0, c)
  return .inl (s.1 + 1, c)

/-- The behavior `crc32`. -/
def crc32 (fuel : Nat) (data : Allocation 65536) (len crc : Allocation 8) :
    Option (Allocation 8) := do
  let lenv ← len.load 8 0
  let c ← exits (crcBody fuel data lenv) fuel (0, 4294967295)
  let cf := c ^^^ 4294967295
  let out := cf &&& 4294967295
  crc.store out 8 0

/-- The reflected polynomial. -/
def crcPolynomial : BitVec 32 := 0xEDB88320

section Words

/-- A word of 32 bits in a register. -/
def wordReg (c : BitVec 32) : Register := c.setWidth 64

variable {c d : BitVec 32}

/-- Registers of words are added as words. -/
theorem wordReg_xor : wordReg c ^^^ wordReg d = wordReg (c ^^^ d) := by
  rw [wordReg, wordReg, wordReg, BitVec.setWidth_xor]

/-- Registers of words are shifted as words. -/
theorem wordReg_shift : wordReg c >>> 1 = wordReg (c >>> 1) := by
  apply BitVec.eq_of_toNat_eq
  rw [wordReg, wordReg, BitVec.toNat_ushiftRight, BitVec.toNat_setWidth_of_le (by decide),
    BitVec.toNat_setWidth_of_le (by decide), BitVec.toNat_ushiftRight]

/-- The low bit of a word is that of its register. -/
theorem wordReg_low : wordReg c &&& 1 = 1 ↔ c.getLsbD 0 = true := by
  have low : (wordReg c).getLsbD 0 = c.getLsbD 0 := by simp [wordReg]
  rw [← low, show (1 : Register) = 1#64 from rfl, BitVec.and_one_eq_setWidth_ofBool_getLsbD]
  cases (wordReg c).getLsbD 0 <;> decide

/-- A byte register is the word register of the byte. -/
theorem byteReg_eq {b : UInt8} : byteReg b = wordReg (b.toBitVec.setWidth 32) := by
  apply BitVec.eq_of_toNat_eq
  rw [byteReg, wordReg, BitVec.toNat_setWidth_of_le (by decide),
    BitVec.toNat_setWidth_of_le (by decide),
    BitVec.toNat_setWidth_of_le (by decide)]

/-- The complement in the register is that of the word. -/
theorem wordReg_complement : (wordReg c ^^^ 4294967295) &&& 4294967295 = wordReg (~~~ c) := by
  have ones : (4294967295 : Register) = wordReg (BitVec.allOnes 32) := by decide
  rw [ones, wordReg_xor, BitVec.xor_allOnes, wordReg, wordReg, ← BitVec.setWidth_and,
    BitVec.and_allOnes]

end Words

section Runs

variable {fuel n : Nat} {data : Allocation 65536} {c : BitVec 32}

/-- The bits of a byte that was added to the register. -/
theorem crcBits_eq (enough : 8 < fuel) :
    exits crcBits fuel (0, wordReg c) =
      some (wordReg ((Crc.step crcPolynomial · false)^[8] c)) := by
  refine exits_along_leave (p := fun k =>
    (count k, wordReg ((Crc.step crcPolynomial · false)^[k] c))) (fun k below => ?_) ?_ enough
  · have more : ige (count k) 8 = false := ige_before (n := 8) rfl (by omega) (by decide)
    have poly : (3988292384 : Register) = wordReg crcPolynomial := by decide
    simp only [crcBits, more, wordReg_low, wordReg_shift, count_succ, poly, wordReg_xor,
      Function.iterate_succ_apply',
      Crc.step, Bool.xor_false, Bool.false_eq_true, if_false]
    split_ifs <;> rfl
  · rfl

/-- `crc32` returns the check of the first bytes, by the register and by division. -/
theorem crc32_eq {len crc : Allocation 8} (read : len.bytes.load 0 8 = n) (le : n ≤ 65536)
    (enough : 65536 < fuel) :
    ∃ crc', crc32 fuel data len crc = some crc' ∧
      intIn crc' = (Crc.check crcPolynomial (data.bytes.bytes 0 n)).setWidth 64 ∧
      Crc.IsCheck crcPolynomial (data.bytes.bytes 0 n)
        (Crc.check crcPolynomial (data.bytes.bytes 0 n)) := by
  have counted : intIn len = count n := by rw [intIn, read]
  have looped : exits (crcBody fuel data (count n)) fuel (0, 4294967295) =
      some (wordReg (Crc.register crcPolynomial (BitVec.allOnes 32) (data.bytes.bytes 0 n))) := by
    refine exits_along_leave (n := n) (p := fun i => (count i,
      wordReg (Crc.register crcPolynomial (BitVec.allOnes 32) (data.bytes.bytes 0 i))))
        (fun i below => ?_) ?_ (by omega)
    · have more : ige (count i) (count n) = false := ige_counts_before (by omega) (by omega)
      simp only [crcBody, more, load_char (show i < 65536 by omega) (by omega),
        Option.bind_eq_bind, Option.bind_some,
        charReg_and_255, byteReg_eq, wordReg_xor, crcBits_eq (show 8 < fuel by omega),
          Crc.register_byte _ (show 8 ≤ 32 by decide),
        count_succ, Buffer.bytes_succ, Crc.register_append, Nat.zero_add, Bool.false_eq_true,
          if_false]
      rfl
    · have done : ige (count n) (count n) = true := by
        rw [ige_counts (by omega) (by omega), decide_eq_true (Nat.le_refl n)]
      simp only [crcBody, done, if_true]
      rfl
  refine ⟨_, ?_, intIn_store _ crc, Crc.isCheck_check (by decide) _⟩
  simp only [crc32, load_intIn, counted, looped, Option.bind_eq_bind, Option.bind_some,
    wordReg_complement, store_int]
  rfl

/-- The nine digits of the standard check. -/
theorem crc32_eq_digits : ∃ crc', crc32 70000 ⟨fun i => UInt8.ofNat (49 + i)⟩ (intOf 9)
    (intOf 0) = some crc' ∧
    intIn crc' =
      (Crc.check crcPolynomial (Buffer.bytes (fun i => UInt8.ofNat (49 + i)) 0 9)).setWidth 64 ∧
    Crc.IsCheck crcPolynomial (Buffer.bytes (fun i => UInt8.ofNat (49 + i)) 0 9)
      (Crc.check crcPolynomial (Buffer.bytes (fun i => UInt8.ofNat (49 + i)) 0 9)) :=
  crc32_eq (load_intOf (by decide)) (by decide) (by decide)

end Runs

end Sigil.Stdlib
