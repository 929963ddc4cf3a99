import Mathlib

/-!
# Cyclic redundancy checks

A reflected check a bit at a time: the register moves down one place for each bit of the message,
and the polynomial is added where the bit that leaves it differs from the message's. The
register is the
remainder of a division of polynomials over two elements.
-/

namespace Flow.Crc

variable {w : Nat} {poly r x : BitVec w} {k : Nat}

/-- One bit of the message. -/
def step (poly r : BitVec w) (bit : Bool) : BitVec w :=
  if (r.getLsbD 0 ^^ bit) then (r >>> 1) ^^^ poly else r >>> 1

/-- The bits of a byte, the lowest first. -/
def byteBits (b : UInt8) : List Bool := (List.range 8).map b.toBitVec.getLsbD

/-- The register behind a message. -/
def register (poly : BitVec w) (r : BitVec w) (message : List UInt8) : BitVec w :=
  (message.flatMap byteBits).foldl (step poly) r

/-- The check of a message, with the register complemented before and after it. -/
def check (poly : BitVec w) (message : List UInt8) : BitVec w :=
    ~~~ register poly (BitVec.allOnes w) message

/-- A message is checked part by part. -/
theorem register_append (first second : List UInt8) :
    register poly r (first ++ second) = register poly (register poly r first) second := by
  rw [register, List.flatMap_append, List.foldl_append]
  rfl

/-- A step is linear in the register. -/
theorem step_xor (bit : Bool) (same : x.getLsbD 0 = bit) :
    step poly (r ^^^ x) false = step poly r bit ^^^ (x >>> 1) := by
  subst same
  rw [step, step, BitVec.getLsbD_xor, Bool.xor_false, BitVec.ushiftRight_xor_distrib]
  split
  · rw [BitVec.xor_assoc, BitVec.xor_comm (x >>> 1), ← BitVec.xor_assoc]
  · rfl

/-- Bits that are added to the register beforehand are left over where they have not been read. -/
theorem foldl_bits : (step poly · false)^[k] (r ^^^ x) =
    ((List.range k).map x.getLsbD).foldl (step poly) r ^^^ (x >>> k) := by
  induction k with
  | zero => simp
  | succ k ih =>
      rw [Function.iterate_succ_apply', ih, List.range_succ, List.map_append, List.foldl_append,
        step_xor (x.getLsbD k) (by simp), ← BitVec.shiftRight_add]
      rfl

/-- A byte that is added to the register and shifted out. -/
theorem register_byte (b : UInt8) (wide : 8 ≤ w) :
    (step poly · false)^[8] (r ^^^ b.toBitVec.setWidth w) = register poly r [b] := by
  have bits : (List.range 8).map (b.toBitVec.setWidth w).getLsbD = byteBits b := by
    refine List.map_congr_left fun i below => ?_
    have low := List.mem_range.mp below
    rw [BitVec.getLsbD_setWidth]
    simp [show i < w by omega]
  have rest : b.toBitVec.setWidth w >>> 8 = 0 := by
    apply BitVec.eq_of_toNat_eq
    have below := b.toNat_lt
    rw [BitVec.toNat_ushiftRight, BitVec.toNat_setWidth_of_le wide, Nat.shiftRight_eq_div_pow]
    exact Nat.div_eq_of_lt below
  rw [foldl_bits, bits, rest, register, List.flatMap_cons, List.flatMap_nil, List.append_nil]
  exact BitVec.xor_zero

section Division

open Polynomial

/-- A bit as a coefficient. -/
def coefficient (bit : Bool) : ZMod 2 := if bit then 1 else 0

/-- The polynomial of a reflected register: its lowest bit is the highest coefficient. -/
noncomputable def toPoly (r : BitVec w) : (ZMod 2)[X] :=
  ∑ i ∈ Finset.range w, C (coefficient (r.getLsbD i)) * X ^ (w - 1 - i)

/-- The divisor, with the coefficient that the register has no place for. -/
noncomputable def divisor (poly : BitVec w) : (ZMod 2)[X] := X ^ w + toPoly poly

/-- The polynomial of a message, its first bit the highest coefficient. -/
noncomputable def messagePoly (bits : List Bool) : (ZMod 2)[X] :=
  bits.foldl (fun m bit => m * X + C (coefficient bit)) 0

/-- The sum of coefficients is the exclusive or. -/
theorem coefficient_xor (a b : Bool) : coefficient (a ^^ b) = coefficient a + coefficient b := by
  cases a <;> cases b <;> decide

/-- The sum of polynomials is the exclusive or. -/
theorem toPoly_xor : toPoly (r ^^^ x) = toPoly r + toPoly x := by
  rw [toPoly, toPoly, toPoly, ← Finset.sum_add_distrib]
  refine Finset.sum_congr rfl fun i _ => ?_
  rw [BitVec.getLsbD_xor, coefficient_xor, C_add, add_mul]

/-- Every polynomial is its own negative. -/
theorem two_mul_eq_zero (p : (ZMod 2)[X]) : p + p = 0 := CharTwo.add_self_eq_zero p

/-- The register moved down and the coefficient that leaves it. -/
theorem X_mul_toPoly (positive : 0 < w) :
    X * toPoly r = C (coefficient (r.getLsbD 0)) * X ^ w + toPoly (r >>> 1) := by
  obtain ⟨n, rfl⟩ := Nat.exists_eq_add_one_of_ne_zero positive.ne'
  have last : (r >>> 1).getLsbD n = false := by simp
  rw [toPoly, toPoly, Finset.sum_range_succ', Finset.sum_range_succ, last, mul_add,
    Finset.mul_sum, add_comm]
  congr 1
  · simp only [Nat.add_sub_cancel, Nat.sub_zero, pow_succ]
    ring
  · rw [show coefficient false = 0 from rfl, C_0, zero_mul, add_zero]
    refine Finset.sum_congr rfl fun i mem => ?_
    have below := Finset.mem_range.mp mem
    rw [BitVec.getLsbD_ushiftRight, Nat.add_comm 1 i, mul_left_comm, ← pow_succ',
      show n + 1 - 1 - (i + 1) + 1 = n + 1 - 1 - i by omega]

/-- One bit is one step of the division. -/
theorem toPoly_step (positive : 0 < w) (bit : Bool) : X * toPoly r + C (coefficient bit) * X ^ w =
    toPoly (step poly r bit) + divisor poly * C (coefficient (r.getLsbD 0 ^^ bit)) := by
  have stepped : toPoly (step poly r bit) =
    toPoly (r >>> 1) + C (coefficient (r.getLsbD 0 ^^ bit)) * toPoly poly := by
    rw [step]
    cases r.getLsbD 0 ^^ bit
    · simp [coefficient]
    · simp [coefficient, toPoly_xor]
  have twice := two_mul_eq_zero (C (coefficient (r.getLsbD 0 ^^ bit)) * toPoly poly)
  rw [X_mul_toPoly positive, stepped, divisor, add_mul, add_assoc, add_assoc,
    mul_comm (toPoly poly), add_comm (X ^ w * _), ← add_assoc (C _ * toPoly poly),
    twice, zero_add, coefficient_xor, C_add]
  ring

/-- The polynomial of a register is short. -/
theorem degree_toPoly : (toPoly r).degree < w := by
  refine (degree_sum_le _ _).trans_lt ?_
  rw [Finset.sup_lt_iff (by exact WithBot.bot_lt_coe w)]
  intro i mem
  refine (degree_C_mul_X_pow_le _ _).trans_lt ?_
  have below := Finset.mem_range.mp mem
  exact_mod_cast show w - 1 - i < w by omega

/-- The divisor begins with 1. -/
theorem divisor_monic : (divisor poly).Monic := monic_X_pow_add degree_toPoly

/-- The divisor is one longer than the register. -/
theorem degree_divisor : (divisor poly).degree = w := by
  rw [divisor, degree_add_eq_left_of_degree_lt, degree_X_pow]
  rw [degree_X_pow]
  exact degree_toPoly

/-- The register holds the rest of the division, up to the bits not yet read. -/
theorem exists_quotient (positive : 0 < w) (bits : List Bool) :
    ∃ q, X ^ bits.length * toPoly r + X ^ w * messagePoly bits =
    toPoly (bits.foldl (step poly) r) + divisor poly * q := by
  induction bits using List.reverseRecOn with
  | nil => exact ⟨0, by simp [messagePoly]⟩
  | append_singleton bits bit ih =>
      obtain ⟨q, divided⟩ := ih
      have turn := @toPoly_step w poly (bits.foldl (step poly) r) positive bit
      have message : messagePoly (bits ++ [bit]) = messagePoly bits * X + C (coefficient bit) := by
        rw [messagePoly, List.foldl_append]
        rfl
      have power : (bits ++ [bit]).length = bits.length + 1 := by simp
      refine ⟨X * q + C (coefficient ((bits.foldl (step poly) r).getLsbD 0 ^^ bit)), ?_⟩
      rw [message, power, List.foldl_append, List.foldl_cons, List.foldl_nil,
        mul_add (divisor poly), add_comm (divisor poly * _), ← add_assoc, ← turn, pow_succ]
      linear_combination X * divided

/-- The register behind a message is the remainder of its division. -/
theorem toPoly_register (positive : 0 < w) (message : List UInt8) :
    toPoly (register poly r message) =
    (X ^ (message.flatMap byteBits).length * toPoly r + X ^ w * messagePoly
      (message.flatMap byteBits)) %ₘ divisor poly := by
  obtain ⟨q, divided⟩ := @exists_quotient w poly r positive (message.flatMap byteBits)
  refine ((div_modByMonic_unique q _ divisor_monic ⟨divided.symm, ?_⟩).2).symm
  rw [degree_divisor]
  exact degree_toPoly

/-- The check of a message by polynomial division, a register of ones added before and after it. -/
def IsCheck (poly : BitVec w) (message : List UInt8) (c : BitVec w) : Prop :=
  toPoly c = toPoly (BitVec.allOnes w) +
    (X ^ (message.flatMap byteBits).length * toPoly (BitVec.allOnes w) +
    X ^ w * messagePoly (message.flatMap byteBits)) %ₘ divisor poly

/-- The register ends with the check value. -/
theorem isCheck_check (positive : 0 < w) (message : List UInt8) :
    IsCheck poly message (check poly message) := by
  rw [IsCheck, check, ← BitVec.allOnes_xor, toPoly_xor, toPoly_register positive]

end Division

end Flow.Crc
