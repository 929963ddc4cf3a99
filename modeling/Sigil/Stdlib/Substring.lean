import Sigil.Stdlib.Scan

/-!
# The behavior `substring`

A range of a text, cut where the text ends. A store that lies behind the buffer is aborted, and one
in front of it is aborted or, at the offset -1, slips through the bounds check.
-/

namespace Sigil.Stdlib

open Flow

def substring (fuel : Nat) (data : Allocation 65536) (offset length : Allocation 8)
    (result : Allocation 65536)
    (actual_length : Allocation 8) : Option (Allocation 65536 × Allocation 8) := do
  let data_len ← getLengthBefore fuel data 65536
  let start_val ← offset.load 8 0
  let req_val ← length.load 8 0
  let start := if ilt start_val 0 then 0 else start_val
  if ige start data_len then
    let actual_length ← actual_length.store 0 8 0
    let result ← result.store 0 1 0
    return (result, actual_length)
  let available := data_len - start
  let copy_len := if ilt available req_val then available else req_val
  let result ← exits (copyBody data start copy_len 0) fuel (0, result)
  let result ← result.store 0 1 copy_len
  let actual_length ← actual_length.store copy_len 8 0
  return (result, actual_length)

section Cutting

variable {fuel n : Nat} {data result : Allocation 65536}
  {offset length actual_length : Allocation 8} {r : Register}

/-- How many bytes of a text of `n` bytes a range has. -/
def rangeLength (n : Nat) (offset length : Int) : Nat := (min length (n - max offset 0)).toNat

/-- Ranges that start behind the text, and ranges of no negative length other than a whole full
buffer. -/
def RangeFits (n : Nat) (offset length : Int) : Prop :=
  (n : Int) ≤ max offset 0 ∨ 0 ≤ length ∧ ¬ (n = 65536 ∧ offset ≤ 0 ∧ 65536 ≤ length)

/-- Registers are compared with their signs. -/
theorem ilt_toInt {x y : Register} : ilt x y = decide (x.toInt < y.toInt) := BitVec.slt_eq_decide

/-- A negative register is taken for zero. -/
theorem clamp_eq : (if ilt r 0 then 0 else r) = count r.toInt.toNat ∧ r.toInt.toNat < 2 ^ 63 := by
  rw [ilt_toInt, show (0 : Register).toInt = 0 from rfl]
  by_cases negative : r.toInt < 0
  · rw [if_pos (decide_eq_true negative), Int.toNat_of_nonpos negative.le]
    exact ⟨rfl, by decide⟩
  · rw [if_neg (by simpa using negative)]
    exact eq_count (by omega)

/-- The bytes of the range and a terminator, where the terminator lies in the buffer. -/
theorem substring_eq (size : (data.bytes.text 65536).length = n) (enough : 65536 < fuel) :
    substring fuel data offset length result actual_length =
      if n ≤ (intIn offset).toInt.toNat then
        some (⟨Function.update result.bytes 0 0⟩, ⟨actual_length.bytes.store 0 0 8⟩)
      else if 0 ≤ (intIn length).toInt ∧ rangeLength n (intIn offset).toInt (intIn length).toInt
        < 65536 then
        some (⟨Function.update (Buffer.copy data.bytes (intIn offset).toInt.toNat result.bytes 0
            (rangeLength n (intIn offset).toInt (intIn length).toInt))
          (rangeLength n (intIn offset).toInt (intIn length).toInt) 0⟩,
          ⟨actual_length.bytes.store 0 (rangeLength n (intIn offset).toInt (intIn length).toInt) 8⟩)
      else none := by
  have scanned : getLengthBefore fuel data 65536 = some (count (data.bytes.text 65536).length) :=
    getLengthBefore_eq rfl (by decide) enough
  have le : n ≤ 65536 := size ▸ Buffer.length_text_le
  obtain ⟨clamped, small⟩ := @clamp_eq (intIn offset)
  obtain ⟨o, start⟩ : ∃ o, (intIn offset).toInt.toNat = o := ⟨_, rfl⟩
  have range : rangeLength n (intIn offset).toInt (intIn length).toInt =
    min (intIn length).toInt.toNat (n - o) := by
    rw [rangeLength]
    omega
  rw [start] at clamped small ⊢
  simp only [substring, scanned, size, load_intIn, clamped, Option.bind_eq_bind, Option.bind_some,
    ige_counts small (show n < 2 ^ 63 by omega), decide_eq_true_eq, range]
  by_cases behind : n ≤ o
  · rw [if_pos behind, if_pos behind, store_int, Allocation.store_byte (by decide)]
    rfl
  rw [if_neg behind, if_neg behind, count_sub (by omega), ilt_toInt, toInt_count (by omega)]
  by_cases positive : 0 ≤ (intIn length).toInt
  · obtain ⟨counted, small'⟩ := eq_count positive
    obtain ⟨k, least⟩ : ∃ k, min (intIn length).toInt.toNat (n - o) = k := ⟨_, rfl⟩
    have cut :
      (if decide (((n - o : Nat) : Int) < (intIn length).toInt) then count (n - o) else intIn
        length) = count k := by
      by_cases more : ((n - o : Nat) : Int) < (intIn length).toInt
      · rw [if_pos (decide_eq_true more), ← least, Nat.min_eq_right (by omega)]
      · rw [if_neg (by simpa using more), ← least, Nat.min_eq_left (by omega), ← counted]
    have copied : exits (copyBody data (count o) (count k) 0) fuel (0, result) =
        some ⟨Buffer.copy data.bytes o result.bytes 0 k⟩ :=
      exits_copyBody (d := 0) (by omega) (by omega) (by decide) (by decide) (by omega)
    rw [cut, copied, Option.bind_some, least]
    by_cases room : k < 65536
    · rw [if_pos ⟨positive, room⟩, store_char room (by omega), Option.bind_some, store_int,
        Option.bind_some,
        toNat_count (by omega)]
      rfl
    · rw [if_neg fun both => room both.2, store_char_outside (by omega) (by omega)]
      rfl
  · have cut :
      (if decide (((n - o : Nat) : Int) < (intIn length).toInt) then count (n - o) else intIn
        length) = intIn length :=
      if_neg (by simp; omega)
    have done : copyBody data (count o) (intIn length) 0 (0, result) = some (.inr result) := by
      have stop : ige 0 (intIn length) = true := by
        rw [ige, BitVec.sle_eq_decide, decide_eq_true]
        exact (not_le.mp positive).le
      simp only [copyBody, stop, if_true]
      rfl
    have outside : 65536 ≤ (intIn length).toNat := by
      have half := BitVec.toInt_neg_iff.mp (not_le.mp positive)
      omega
    obtain ⟨fuel, rfl⟩ := Nat.exists_eq_add_one_of_ne_zero (Nat.ne_of_gt (Nat.zero_lt_of_lt enough))
    rw [cut, exits_leave done, Option.bind_some, store_outside outside, if_neg fun both =>
      positive both.1]
    rfl

/-- The check emitted in front of an access of `n` bytes passes. It adds in 64 bits. -/
def PassesCheck (size n : Nat) (off : Register) : Prop := (off + BitVec.ofNat 64 n).toNat ≤ size

/-- A store fails where the check stops it, and where the sum wraps, so that it slips through. -/
theorem store_eq_none_iff {size k : Nat} {a : Allocation size} {v off : Register} (le : k ≤ size)
    (small : size < 2 ^ 63) :
    a.store v k off = none ↔ ¬ PassesCheck size k off ∨ 2 ^ 64 ≤ off.toNat + k := by
  have sum : (off + BitVec.ofNat 64 k).toNat = (off.toNat + k) % 2 ^ 64 := by
    rw [BitVec.toNat_add, BitVec.toNat_ofNat, Nat.mod_eq_of_lt (show k < 2 ^ 64 by omega)]
  have word : off.toNat < 2 ^ 64 := off.isLt
  unfold Allocation.store PassesCheck
  rw [sum, ite_eq_right_iff]
  simp only [reduceCtorEq, imp_false]
  omega

/-- The terminator of a range that is not cut is aborted, but for the one at the offset -1: it
slips through to the byte in front of the result. -/
theorem passesCheck_terminator_iff {o : Nat} (inside : o < n) (le : n ≤ 65536)
    (unfit : ¬ (0 ≤ (intIn length).toInt ∧ min (intIn length).toInt.toNat (n - o) < 65536)) :
    PassesCheck 65536 1
      (if ilt (count (n - o)) (intIn length) then count (n - o) else intIn length) ↔
        (intIn length).toInt = -1 := by
  have word : (intIn length).toNat < 2 ^ 64 := (intIn length).isLt
  have signed := BitVec.toInt_eq_toNat_cond (intIn length)
  have sum (off : Register) : (off + BitVec.ofNat 64 1).toNat = (off.toNat + 1) % 2 ^ 64 :=
    BitVec.toNat_add off 1
  unfold PassesCheck
  rw [ilt_toInt, toInt_count (by omega), sum]
  by_cases more : ((n - o : Nat) : Int) < (intIn length).toInt
  · rw [if_pos (decide_eq_true more), toNat_count (by omega)]
    omega
  · rw [if_neg (by simpa using more)]
    split at signed <;> omega

/-- `substring` ends, and its outputs hold the range, its length and a terminator where there is
room. -/
def CutsRange (fuel n : Nat) (data : Allocation 65536) (offset length : Allocation 8)
    (result : Allocation 65536)
    (actual_length : Allocation 8) : Prop :=
  ∃ result' actual_length', substring fuel data offset length result actual_length =
    some (result', actual_length') ∧
    (intIn actual_length').toInt = max 0
      (min (intIn length).toInt (n - max (intIn offset).toInt 0)) ∧
    result'.bytes.bytes 0 (rangeLength n (intIn offset).toInt (intIn length).toInt) =
      data.bytes.bytes (max (intIn offset).toInt 0).toNat
        (rangeLength n (intIn offset).toInt (intIn length).toInt) ∧
    (rangeLength n (intIn offset).toInt (intIn length).toInt < 65536 →
      result'.bytes (rangeLength n (intIn offset).toInt (intIn length).toInt) = 0)

/-- A small count stored is the integer in the buffer. -/
theorem intIn_store_count {k : Nat} (small : k < 2 ^ 63) (a : Allocation 8) :
    (intIn ⟨a.bytes.store 0 k 8⟩).toInt = k := by
  have stored := intIn_store (count k) a
  rw [toNat_count small] at stored
  rw [stored, toInt_count small]

/-- Ranges are cut exactly where they start behind the text, or have no negative length and
leave room for a terminator. -/
theorem cutsRange_iff (size : (data.bytes.text 65536).length = n) (enough : 65536 < fuel) :
    CutsRange fuel n data offset length result actual_length ↔
      RangeFits n (intIn offset).toInt (intIn length).toInt := by
  have le : n ≤ 65536 := size ▸ Buffer.length_text_le
  unfold CutsRange
  rw [substring_eq size enough]
  obtain ⟨o, offset'⟩ : ∃ o, (intIn offset).toInt = o := ⟨_, rfl⟩
  obtain ⟨l, length'⟩ : ∃ l, (intIn length).toInt = l := ⟨_, rfl⟩
  rw [offset', length']
  have clamped : (max o 0).toNat = o.toNat := by omega
  by_cases behind : n ≤ o.toNat
  · have none_ : rangeLength n o l = 0 := by
      rw [rangeLength]
      omega
    rw [if_pos behind, none_]
    refine iff_of_true ⟨_, _, rfl, ?_, rfl, fun _ => Function.update_self 0 0 result.bytes⟩
      (.inl (by omega))
    rw [intIn_store_count (by decide)]
    omega
  rw [if_neg behind]
  by_cases fits : 0 ≤ l ∧ rangeLength n o l < 65536
  · have range : (rangeLength n o l : Int) = max 0 (min l (n - max o 0)) := by
      rw [rangeLength]
      omega
    have room : RangeFits n o l := by
      have short := fits.2
      rw [rangeLength] at short
      exact .inr ⟨fits.1, by omega⟩
    rw [if_pos fits]
    refine iff_of_true ⟨_, _, rfl, ?_, ?_, fun _ => Function.update_self ..⟩ room
    · rw [intIn_store_count (by omega), range]
    · rw [clamped, Buffer.bytes_update_of_outside (by omega)]
      exact Buffer.bytes_copy
  · have not_fits : ¬ RangeFits n o l := by
      rintro (past | ⟨positive, other⟩)
      · omega
      · refine fits ⟨positive, ?_⟩
        rw [rangeLength]
        omega
    rw [if_neg fits]
    refine iff_of_false ?_ not_fits
    rintro ⟨_, _, cut, -⟩
    cases cut

/-- More than is left behind the first of three bytes. -/
theorem cutsRange_iff_ones : CutsRange 70000 3 (onesUpTo 65536 3) (intOf 1) (intOf 5)
    ⟨fun _ => 1⟩ (intOf 0) ↔
    RangeFits 3 (intIn (intOf 1)).toInt (intIn (intOf 5)).toInt :=
  cutsRange_iff (length_onesUpTo (by decide)) (by decide)

/-- The terminator of a range of the length -1 is stored in front of the result. -/
theorem substring_negative : ¬ ∃ fuel > 65536,
    CutsRange fuel 1 (onesUpTo 65536 1) (intOf 0) (intOf (2 ^ 64 - 1)) ⟨fun _ => 0⟩ (intOf 0) := by
  rintro ⟨fuel, enough, _, _, cut, -⟩
  have offset : (intIn (intOf 0)).toInt = 0 := by rw [intIn, load_intOf (by decide)]; rfl
  have length : (intIn (intOf (2 ^ 64 - 1))).toInt =
    -1 := by rw [intIn, load_intOf (by decide)]; rfl
  rw [substring_eq (length_onesUpTo (by decide)) enough, offset, length, if_neg (by decide),
    if_neg (by decide)] at cut
  cases cut

end Cutting

end Sigil.Stdlib
