import Sigil.Stdlib.Registers

/-!
# The decimal behaviors

`int-to-string` and `string-to-int`. The cells they allocate for one integer are registers here;
`tmp`, which keeps the digits from the lowest on, is a buffer. Each loop runs `fuel` rounds at most.
-/

namespace Sigil.Stdlib

open Flow

section Writing

/-- The registers and the digits of the first loop. -/
structure Digits where
  v : Register
  tp : Register
  tmp : Allocation 32

def digitBody (s : Digits) : Option Digits := do
  let digit := s.v.srem 10
  let newV := s.v.sdiv 10
  let ascii := digit + 48
  let tmp ← s.tmp.store ascii 1 s.tp
  return ⟨newV, s.tp + 1, tmp⟩

/-- The registers and the text of the reversing loop. -/
structure Reversal where
  tp : Register
  p : Register
  str : Allocation 32

def reverseBody (tmp : Allocation 32) (s : Reversal) : Option Reversal := do
  let digit ← tmp.load 1 s.tp
  let str ← s.str.store digit 1 s.p
  return ⟨s.tp - 1, s.p + 1, str⟩

/-- The label `write_minus`. -/
def writeMinus (isNeg : Bool) (str : Allocation 32) : Option (Allocation 32) :=
  if isNeg then str.store 45 1 0 else some str

/-- `int-to-string`: the text and its length. -/
def intToString (fuel : Nat) (value : Allocation 8) (tmp str : Allocation 32)
    (length : Allocation 8) :
    Option (Allocation 32 × Allocation 8) := do
  let v ← value.load 8 0
  let isNeg := ilt v 0
  let v := if isNeg then 0 - v else v
  if v = 0 then
    let str ← str.store 48 1 0
    let str ← str.store 0 1 1
    let length ← length.store 1 8 0
    return (str, length)
  else
    let s ← rounds (fun s => s.v = 0) digitBody fuel ⟨v, 0, tmp⟩
    let str ← writeMinus isNeg str
    let pos := if isNeg then 1 else 0
    let s ← rounds (fun s => ilt s.tp 0) (reverseBody s.tmp) fuel ⟨s.tp - 1, pos, str⟩
    let str ← s.str.store 0 1 s.p
    let length ← length.store s.p 8 0
    return (str, length)

end Writing

section Reading

/-- The registers of the parsing loop. -/
structure Parsing where
  pos : Register
  result : Register

/-- A digit is taken in; the terminator and any other byte end the loop. -/
def parseBody (str : Allocation 32) (s : Parsing) : Option (Option Parsing) := do
  let byte ← str.load 1 s.pos
  if byte = 0 then return none
  if ige byte 48 && ile byte 57 then
    let r := s.result * 10
    let digit := byte - 48
    return some ⟨s.pos + 1, r + digit⟩
  else return none

/-- `string-to-int`: the value and the status. -/
def stringToInt (fuel : Nat) (str : Allocation 32) (value status : Allocation 8) :
    Option (Allocation 8 × Allocation 8) := do
  let first ← str.load 1 0
  let isNeg := decide (first = 45)
  let s ← roundsUntil (parseBody str) fuel ⟨if isNeg then 1 else 0, 0⟩
  let r := if isNeg then 0 - s.result else s.result
  let value ← value.store r 8 0
  let minLen := flag isNeg + 1
  let status ← status.store (if ige s.pos minLen then 0 else -1) 8 0
  return (value, status)

end Reading

section Digits

variable {v w : Register} {m n i : Nat}

/-- The value after some digits are taken off. -/
def quotient (v : Register) : Nat → Register
  | 0 => v
  | i + 1 => (quotient v i).sdiv 10

/-- The character stored for a digit. -/
def digitChar (v : Register) (i : Nat) : UInt8 := UInt8.ofNat ((quotient v i).srem 10 + 48).toNat

/-- A quotient of the loop is the number divided by a power of ten. -/
theorem toNat_quotient (small : w.toNat < 2 ^ 63) : (quotient w i).toNat = w.toNat / 10 ^ i := by
  induction i with
  | zero => rw [quotient, Nat.pow_zero, Nat.div_one]
  | succ i ih =>
      have lower : (quotient w i).msb = false :=
        msb_eq_false (ih ▸ (Nat.div_le_self _ _).trans_lt small)
      rw [quotient, BitVec.sdiv_eq, lower]
      change (quotient w i / 10).toNat = _
      rw [BitVec.toNat_udiv, ih, Nat.pow_succ, ← Nat.div_div_eq_div_mul]
      rfl

/-- The character of a quotient is its last digit. -/
theorem digitChar_eq (small : w.toNat < 2 ^ 63) :
    digitChar w i = UInt8.ofNat (48 + w.toNat / 10 ^ i % 10) := by
  have quotient := @toNat_quotient w i small
  have lower : (Stdlib.quotient w i).msb = false :=
    msb_eq_false (quotient ▸ (Nat.div_le_self _ _).trans_lt small)
  rw [digitChar, BitVec.srem_eq, lower]
  change UInt8.ofNat (Stdlib.quotient w i % 10 + 48).toNat = _
  have digit : (Stdlib.quotient w i % 10).toNat =
    w.toNat / 10 ^ i % 10 := by rw [BitVec.toNat_umod, quotient]; rfl
  have below := Nat.mod_lt (w.toNat / 10 ^ i) (show 0 < 10 by decide)
  congr 1
  bv_omega

/-- What holds after `i` digits. -/
structure Taken (v : Register) (tmp : Allocation 32) (i : Nat) (s : Digits) : Prop where
  value : s.v = quotient v i
  count : s.tp.toNat = i
  chars : s.tmp.bytes = Buffer.copy (digitChar v) 0 tmp.bytes 0 i

/-- The loop takes the digits from the last to the first. -/
theorem digits_taken {tmp : Allocation 32} {fuel : Nat} (zero : quotient v n = 0)
    (nonzero : ∀ i < n, quotient v i ≠ 0) (short : n ≤ 32) (enough : n < fuel) :
    ∃ s, rounds (fun s => decide (s.v = 0)) digitBody fuel ⟨v, 0, tmp⟩ = some s ∧
      Taken v tmp n s := by
  have start : Taken v tmp 0 ⟨v, 0, tmp⟩ := ⟨rfl, rfl, rfl⟩
  refine rounds_counted (fun s now => ?_) (fun i below s now => ⟨?_, ?_⟩) start (Nat.zero_le n)
    enough
  · rw [now.value, decide_eq_true zero]
  · rw [now.value, decide_eq_false (nonzero i below)]
  · have count := now.count
    simp only [digitBody, Option.bind_eq_bind]
    rw [Allocation.store_byte (by omega), Option.bind_some]
    refine ⟨_, rfl, by rw [quotient, ← now.value], by bv_omega, ?_⟩
    rw [Buffer.copy, ← now.chars, count, Nat.zero_add, digitChar, ← now.value]

end Digits

section Reversed

variable {tmp str : Allocation 32} {n pos i : Nat}

/-- The copying loop is done in front of the first digit. -/
theorem ilt_zero {r : Register} (small : (r + 1).toNat ≤ 32) :
    ilt r 0 = decide ((r + 1).toNat = 0) := by
  have sign : ilt r 0 = r.msb := BitVec.slt_zero_eq_msb
  rw [sign, BitVec.msb_eq_decide]
  congr 1
  have wraps : (r + 1).toNat = (r.toNat + 1) % 2 ^ 64 := BitVec.toNat_add r 1
  rw [eq_iff_iff]
  omega

/-- What holds after `i` digits are copied. -/
structure Copied (tmp str : Allocation 32) (n pos i : Nat) (s : Reversal) : Prop where
  left : (s.tp + 1).toNat = n - i
  written : s.p.toNat = pos + i
  chars : s.str.bytes = Buffer.copy (fun j => tmp.bytes (n - 1 - j)) 0 str.bytes pos i

/-- The copying loop puts the digits in order. -/
theorem digits_copied {fuel : Nat} {tp p : Register} (count : (tp + 1).toNat = n)
    (at_ : p.toNat = pos)
    (short : pos + n ≤ 32) (enough : n < fuel) :
    ∃ s, rounds (fun s => ilt s.tp 0) (reverseBody tmp) fuel ⟨tp, p, str⟩ = some s ∧
      Copied tmp str n pos n s := by
  have start : Copied tmp str n pos 0 ⟨tp, p, str⟩ := ⟨count, at_, rfl⟩
  refine rounds_counted (fun s now => ?_) (fun i below s now => ⟨?_, ?_⟩) start (Nat.zero_le n)
    enough
  · rw [ilt_zero (by rw [now.left]; omega), now.left, decide_eq_true (by omega)]
  · rw [ilt_zero (by rw [now.left]; omega), now.left, decide_eq_false (by omega)]
  · have left := now.left
    have written := now.written
    have from_ : s.tp.toNat = n - 1 - i := by bv_omega
    simp only [reverseBody, Option.bind_eq_bind]
    rw [load_byte (by omega), Option.bind_some, Allocation.store_byte (by omega), Option.bind_some]
    refine ⟨_, rfl, by bv_omega, by bv_omega, ?_⟩
    rw [Buffer.copy, ← now.chars, written, ofNat_signExtend, from_, Nat.zero_add]

end Reversed

section Text

/-- The decimal digits of a number, the highest first. -/
def digitsOf (m : Nat) : List Nat := if m = 0 then [0] else (Nat.digits 10 m).reverse

/-- The decimal text of an integer. -/
def decimal (v : Int) : List UInt8 :=
  (if v < 0 then [45] else []) ++ (digitsOf v.natAbs).map fun d => UInt8.ofNat (48 + d)

variable {m n : Nat}

/-- The digits of a number, the first of them first. -/
theorem digitsOf_eq (count : (digitsOf m).length = n) :
    digitsOf m = (List.range n).map fun k => m / 10 ^ (n - 1 - k) % 10 := by
  subst count
  refine List.ext_getElem (by simp) fun k below _ => ?_
  rw [List.getElem_map, List.getElem_range]
  by_cases zero : m = 0
  · subst zero
    simp [digitsOf]
  · simp only [digitsOf, if_neg zero, List.length_reverse, List.getElem_reverse] at below ⊢
    rw [← Nat.getD_digits _ _ (by decide), List.getD_eq_getElem _ _ (by omega)]

/-- A number has as many digits as its size says. -/
theorem length_digitsOf_pos : 0 < (digitsOf m).length := by
  by_cases zero : m = 0
  · simp [digitsOf, zero]
  · simp [digitsOf, zero, List.length_pos_iff, Nat.digits_ne_nil_iff_ne_zero]

/-- A number is less than the power of ten of its length. -/
theorem lt_pow_length : m < 10 ^ (digitsOf m).length := by
  by_cases zero : m = 0
  · simp [digitsOf, zero]
  · rw [digitsOf, if_neg zero, List.length_reverse]
    exact Nat.lt_base_pow_length_digits (by decide)

/-- A number reaches the power of ten below its length. -/
theorem pow_length_le (positive : m ≠ 0) : 10 ^ ((digitsOf m).length - 1) ≤ m := by
  rw [digitsOf, if_neg positive, List.length_reverse]
  have bound := Nat.base_pow_length_digits_le 10 m (by decide) positive
  have some_ : (Nat.digits 10 m).length ≠ 0 := by
    simpa [Nat.digits_eq_nil_iff_eq_zero] using positive
  obtain ⟨k, length⟩ := Nat.exists_eq_succ_of_ne_zero some_
  rw [length, Nat.pow_succ] at bound
  rw [length, Nat.succ_sub_one]
  omega

/-- A small number has nineteen digits at most. -/
theorem length_digitsOf_le (small : m < 2 ^ 63) : (digitsOf m).length ≤ 19 := by
  by_cases zero : m = 0
  · simp [digitsOf, zero]
  · rw [digitsOf, if_neg zero, List.length_reverse, Nat.digits_length_le_iff (by decide)]
    omega

/-- A text with its terminator. -/
structure HoldsText (str : Buffer) (text : List UInt8) : Prop where
  chars : str.bytes 0 text.length = text
  terminated : str text.length = 0

end Text

section Written

variable {value length : Allocation 8} {tmp str : Allocation 32} {fuel n : Nat} {v w : Register}

/-- The length of the sign. -/
def signLength (v : Register) : Nat := if ilt v 0 then 1 else 0

def withSign (v : Register) (str : Buffer) : Buffer :=
    if ilt v 0 then Function.update str 0 45 else str

/-- The sign is written in front of a negative number. -/
theorem writeMinus_eq : writeMinus (ilt v 0) str = some ⟨withSign v str.bytes⟩ := by
  unfold writeMinus withSign
  cases ilt v 0 with
  | true =>
      have room : (0 : Register).toNat < 32 := by decide
      exact Allocation.store_byte room
  | false => rfl

/-- What `int-to-string` writes for a value that is not zero. -/
theorem intToString_eq (loaded : intIn value = v) (magnitude : (if ilt v 0 then 0 - v else v) = w)
    (zero : quotient w n = 0) (nonzero : ∀ i < n, quotient w i ≠ 0) (some_ : 0 < n)
      (short : n ≤ 30) (enough : n < fuel) :
    intToString fuel value tmp str length = some
      (⟨Function.update (Buffer.copy (fun j => digitChar w (n - 1 - j)) 0 (withSign v str.bytes)
        (signLength v) n)
        (signLength v + n) 0⟩, ⟨length.bytes.store 0 (signLength v + n) 8⟩) := by
  have inside : w ≠ 0 := nonzero 0 some_
  obtain ⟨taken, ended, now⟩ := @digits_taken w n tmp fuel zero nonzero (by omega) enough
  have count : (taken.tp - 1 + 1).toNat = n := by rw [BitVec.sub_add_cancel, now.count]
  have chars : ∀ b, Buffer.copy (fun j => taken.tmp.bytes (n - 1 - j)) 0 b (signLength v) n =
      Buffer.copy (fun j => digitChar w (n - 1 - j)) 0 b (signLength v) n := by
    refine fun b => Buffer.copy_congr fun j below => ?_
    rw [now.chars]
    simpa using @Buffer.copy_at tmp.bytes (digitChar w) 0 0 n (n - 1 - (0 + j)) (by omega)
  have at_ : (if ilt v 0 then 1 else 0 : Register).toNat = signLength v := by
    unfold signLength
    cases ilt v 0 <;> rfl
  have le : signLength v ≤ 1 := by unfold signLength; split <;> omega
  obtain ⟨s, copied, now'⟩ := @digits_copied taken.tmp ⟨withSign v str.bytes⟩ n _ fuel
    (taken.tp - 1) _ count at_
    (by omega) enough
  have written := now'.written
  simp only [intToString, load_intIn, loaded, Option.bind_eq_bind, Option.bind_some, magnitude,
    if_neg inside, ended,
    writeMinus_eq, copied]
  rw [Allocation.store_byte (by omega), Option.bind_some, store_int, Option.bind_some, written,
    now'.chars,
    chars]
  rfl

/-- The text for zero. -/
theorem intToString_zero (loaded : intIn value = 0) : intToString fuel value tmp str length = some
    (⟨Function.update (Function.update str.bytes 0 48) 1 0⟩, ⟨length.bytes.store 0 1 8⟩) := by
  have nonnegative : (if ilt 0 0 then 0 - 0 else 0 : Register) = 0 := rfl
  simp only [intToString, load_intIn, loaded, Option.bind_eq_bind, Option.bind_some,
    nonnegative, if_true]
  rw [Allocation.store_byte (by decide), Option.bind_some, Allocation.store_byte (by decide),
    Option.bind_some, store_int]
  rfl

/-- The sign and the digits are the decimal text. -/
theorem decimal_eq (sign : ilt v 0 = decide (v.toInt < 0)) (magnitude : w.toNat = v.toInt.natAbs)
    (small : w.toNat < 2 ^ 63) (count : (digitsOf w.toNat).length = n) {str : Buffer} :
    HoldsText
      (Function.update (Buffer.copy (fun j => digitChar w (n - 1 - j)) 0 (withSign v str)
        (signLength v) n)
      (signLength v + n) 0) (decimal v.toInt) ∧ (decimal v.toInt).length = signLength v + n := by
  have length : (decimal v.toInt).length = signLength v + n := by
    rw [decimal, List.length_append, List.length_map, ← magnitude, count, signLength, sign]
    by_cases negative : v.toInt < 0 <;> simp [negative]
  refine ⟨⟨?_, ?_⟩, length⟩
  · have signs : (withSign v str).bytes 0 (signLength v) = if v.toInt < 0 then [45] else [] := by
      unfold withSign signLength
      rw [sign]
      by_cases negative : v.toInt < 0 <;> simp [negative, Buffer.bytes]
    have digits :
      (Buffer.copy (fun j => digitChar w (n - 1 - j)) 0 (withSign v str) (signLength v) n).bytes
        (0 + signLength v) n = (digitsOf v.toInt.natAbs).map fun d => UInt8.ofNat (48 + d) := by
      rw [← magnitude, digitsOf_eq count, List.map_map, Nat.zero_add, Buffer.bytes_copy]
      refine List.map_congr_left fun j _ => ?_
      rw [Nat.zero_add]
      exact digitChar_eq small
    rw [length, Buffer.bytes_update_of_outside (by omega), Buffer.bytes_append, digits,
      Buffer.bytes_copy_of_outside (by omega), signs, decimal]
  · rw [length, Function.update_self]

end Written

section Parsed

variable {str : Allocation 32} {m n pos i : Nat}

/-- What holds after `i` digits are read. -/
structure Parsed (m n pos i : Nat) (s : Parsing) : Prop where
  read : s.pos.toNat = pos + i
  value : s.result.toNat = m / 10 ^ (n - i)

/-- A small byte keeps its value with a sign. -/
theorem signExtend_of_small {b : UInt8} (small : b.toNat < 128) :
    b.toBitVec.signExtend 64 = byteReg b := by
  refine BitVec.signExtend_eq_setWidth_of_msb_false ?_
  rw [BitVec.msb_eq_decide, decide_eq_false_iff_not, UInt8.toNat_toBitVec]
  omega

/-- A digit is taken in. -/
theorem parseBody_digit {s : Parsing} {d : Nat} (inside : s.pos.toNat < 32)
    (char : str.bytes s.pos.toNat = UInt8.ofNat (48 + d))
    (digit : d < 10) : ∃ r, r.toNat = d ∧ parseBody str s =
      some (some ⟨s.pos + 1, s.result * 10 + r⟩) := by
  have number : (UInt8.ofNat (48 + d)).toNat = 48 + d := by
    rw [UInt8.toNat_ofNat']
    omega
  have loaded : (byteReg (UInt8.ofNat (48 + d))).toNat = 48 + d := toNat_byteReg.trans number
  have above : ige (byteReg (UInt8.ofNat (48 + d))) 48 = true := by
    have bound : (48 : Register).toNat = 48 := rfl
    rw [ige_eq (by omega) (by decide), loaded, bound, decide_eq_true_iff]
    omega
  have below : ile (byteReg (UInt8.ofNat (48 + d))) 57 = true := by
    have bound : (57 : Register).toNat = 57 := rfl
    rw [ile_eq (by omega) (by decide), loaded, bound, decide_eq_true_iff]
    omega
  have notNull : byteReg (UInt8.ofNat (48 + d)) ≠ 0 := by
    intro null
    have zero : (0 : Register).toNat = 0 := rfl
    rw [null] at loaded
    omega
  refine ⟨byteReg (UInt8.ofNat (48 + d)) - 48, by bv_omega, ?_⟩
  simp only [parseBody, load_byte inside, char,
    signExtend_of_small (number.trans_lt (by omega)), Option.bind_eq_bind,
    Option.bind_some, if_neg notNull, above, below]
  rfl

/-- The loop reads the digits of a number. -/
theorem digits_parsed {fuel : Nat} {p : Register} (at_ : p.toNat = pos) (fits : m < 10 ^ n)
    (small : m < 2 ^ 63)
    (chars : ∀ j < n, str.bytes (pos + j) = UInt8.ofNat (48 + m / 10 ^ (n - 1 - j) % 10))
      (terminated : str.bytes (pos + n) = 0)
    (short : pos + n < 32) (enough : n < fuel) :
    ∃ s, roundsUntil (parseBody str) fuel ⟨p, 0⟩ = some s ∧ Parsed m n pos n s := by
  have start : Parsed m n pos 0 ⟨p, 0⟩ := ⟨at_, (Nat.div_eq_of_lt fits).symm⟩
  refine roundsUntil_counted (fun s now => ?_) (fun i below s now => ?_) start (Nat.zero_le n)
    enough
  · have read := now.read
    simp only [parseBody, Option.bind_eq_bind]
    rw [load_byte (by omega), read, terminated]
    rfl
  · have read := now.read
    have value := now.value
    obtain ⟨r, digit, stepped⟩ := @parseBody_digit str s (m / 10 ^ (n - 1 - i) % 10) (by omega)
      (read ▸ chars i below)
      (Nat.mod_lt _ (by decide))
    have next : n - (i + 1) = n - 1 - i := by omega
    have split : m / 10 ^ (n - i) = m / 10 ^ (n - 1 - i) / 10 := by
      rw [Nat.div_div_eq_div_mul, ← Nat.pow_succ]
      congr 2
      omega
    have bound := Nat.div_le_self m (10 ^ (n - 1 - i))
    refine ⟨_, stepped, by bv_omega, ?_⟩
    rw [next]
    rw [split] at value
    bv_omega

end Parsed

section Magnitude

variable {v : Register}

/-- A register is less than zero when its value is. -/
theorem ilt_zero_eq : ilt v 0 = decide (v.toInt < 0) := by
  rw [ilt, BitVec.slt_eq_decide, show (0 : Register).toInt = 0 from rfl]

/-- The magnitude of a value, as `int-to-string` computes it. -/
def magnitude (v : Register) : Register := if ilt v 0 then 0 - v else v

/-- The magnitude is the number without its sign. -/
theorem toNat_magnitude : (magnitude v).toNat = v.toInt.natAbs := by
  have bound := v.isLt
  have value := BitVec.toInt_eq_toNat_cond v
  rw [magnitude, ilt_zero_eq]
  by_cases negative : v.toInt < 0
  · have wraps : (0 - v).toNat = (2 ^ 64 - v.toNat) % 2 ^ 64 := by
      rw [BitVec.toNat_sub]
      simp
    rw [if_pos (decide_eq_true negative), wraps]
    split at value <;> omega
  · rw [if_neg (by simpa using negative)]
    split at value <;> omega

/-- Only the least number has a magnitude too large. -/
theorem magnitude_small (notLeast : v.toInt ≠ -2 ^ 63) : (magnitude v).toNat < 2 ^ 63 := by
  have lower := BitVec.le_toInt v
  have upper := BitVec.toInt_lt (x := v)
  rw [toNat_magnitude]
  omega

/-- The sign undone. -/
theorem restore_sign {r : Register} (same : r.toNat = (magnitude v).toNat) :
    (if decide (v.toInt < 0) then 0 - r else r) = v := by
  rw [BitVec.eq_of_toNat_eq same, magnitude, ilt_zero_eq]
  by_cases negative : v.toInt < 0 <;> simp [negative]

end Magnitude

section RoundTrip

variable {fuel : Nat} {value length value' status : Allocation 8} {tmp str : Allocation 32}

/-- `int-to-string` writes the decimal text, except for the least value. -/
theorem intToString_writes (notLeast : (intIn value).toInt ≠ -2 ^ 63) (enough : 20 < fuel) :
    ∃ str' length', intToString fuel value tmp str length = some (str', length') ∧
      HoldsText str'.bytes (decimal (intIn value).toInt) ∧
      length'.bytes.load 0 8 = (decimal (intIn value).toInt).length := by
  have small := magnitude_small notLeast
  by_cases zero : (magnitude (intIn value)).toNat = 0
  · have none : intIn value = 0 := by
      rw [toNat_magnitude] at zero
      exact BitVec.eq_of_toInt_eq (Int.natAbs_eq_zero.mp zero)
    refine ⟨_, _, intToString_zero none, ?_⟩
    rw [none]
    refine ⟨⟨?_, rfl⟩, Buffer.load_store (by decide)⟩
    simp [decimal, digitsOf, Buffer.bytes]
  · have count := length_digitsOf_le small
    have some_ := @length_digitsOf_pos (magnitude (intIn value)).toNat
    have ends : quotient (magnitude (intIn value))
      (digitsOf (magnitude (intIn value)).toNat).length = 0 := by
      apply BitVec.eq_of_toNat_eq
      rw [toNat_quotient small, Nat.div_eq_of_lt lt_pow_length]
      rfl
    have goes : ∀ i < (digitsOf (magnitude (intIn value)).toNat).length,
      quotient (magnitude (intIn value)) i ≠ 0 := by
      intro i below null
      have quotient := @toNat_quotient (magnitude (intIn value)) i small
      rw [null] at quotient
      have short := (Nat.div_eq_zero_iff.mp quotient.symm).resolve_left
        (Nat.pow_pos (by decide)).ne'
      have long := pow_length_le zero
      have le := Nat.pow_le_pow_right (show 0 < 10 by decide) (Nat.le_sub_one_of_lt below)
      omega
    have written := @intToString_eq value length tmp str fuel _ _ _ rfl rfl ends goes some_
      (by omega) (by omega)
    obtain ⟨holds, size⟩ := @decimal_eq _ (intIn value) (magnitude (intIn value)) ilt_zero_eq
      toNat_magnitude small rfl str.bytes
    exact ⟨_, _, written, holds,
      (Buffer.load_store (by unfold signLength; split <;> omega)).trans size.symm⟩

/-- The characters of a buffer that holds a decimal text. -/
theorem chars_of_holds {v : Register} {n : Nat} {b : Buffer} (small : (magnitude v).toNat < 2 ^ 63)
    (count : (digitsOf (magnitude v).toNat).length = n) (holds : HoldsText b (decimal v.toInt)) :
    (∀ j < n, b (signLength v + j) = UInt8.ofNat
      (48 + (magnitude v).toNat / 10 ^ (n - 1 - j) % 10)) ∧
      (v.toInt < 0 → b 0 = 45) ∧ b (signLength v + n) = 0 := by
  obtain ⟨written, length⟩ := @decimal_eq n v (magnitude v) ilt_zero_eq toNat_magnitude small
    count b
  have same := Buffer.bytes_eq_iff.mp (holds.chars.trans written.chars.symm)
  rw [length] at same
  refine ⟨fun j below => ?_, fun negative => ?_, length ▸ holds.terminated⟩
  · have digit := same (signLength v + j) (by omega)
    rw [Nat.zero_add, Function.update_of_ne (by omega), Buffer.copy_at below, Nat.zero_add] at digit
    rw [digit, digitChar_eq small]
  · have sign : signLength v = 1 := by
      rw [signLength, ilt_zero_eq, decide_eq_true negative, if_pos rfl]
    have first := same 0 (by omega)
    rw [Nat.zero_add, Function.update_of_ne (by omega),
      Buffer.copy_of_outside (by omega), withSign, ilt_zero_eq,
      decide_eq_true negative, if_pos rfl, Function.update_self] at first
    exact first

/-- `string-to-int` reads the decimal text of a value. -/
theorem stringToInt_reads {v : Register} (small : (magnitude v).toNat < 2 ^ 63)
    (holds : HoldsText str.bytes (decimal v.toInt))
    (enough : 20 < fuel) : ∃ result status', stringToInt fuel str value' status =
      some (result, status') ∧
      result.bytes.load 0 8 = v.toNat ∧ status'.bytes.load 0 8 = 0 := by
  have count := length_digitsOf_le small
  have some_ := @length_digitsOf_pos (magnitude v).toNat
  have le : signLength v ≤ 1 := by unfold signLength; split <;> omega
  obtain ⟨chars, minus, terminated⟩ := chars_of_holds small rfl holds
  obtain ⟨first, loaded, sign⟩ : ∃ first, str.load 1 0 = some first ∧ decide (first = 45) =
    decide (v.toInt < 0) := by
    have inside : (0 : Register).toNat < 32 := by decide
    refine ⟨_, load_byte inside, ?_⟩
    change decide ((str.bytes 0).toBitVec.signExtend 64 = 45) = _
    by_cases negative : v.toInt < 0
    · rw [minus negative, decide_eq_true negative]
      rfl
    · have none : signLength v = 0 := by rw [signLength, ilt_zero_eq, decide_eq_false negative]; rfl
      have first := chars 0 some_
      rw [none] at first
      have digit :=
        Nat.mod_lt ((magnitude v).toNat / 10 ^ ((digitsOf (magnitude v).toNat).length - 1 - 0))
          (show 0 < 10 by decide)
      have number : (str.bytes 0).toNat = 48 +
          (magnitude v).toNat / 10 ^ ((digitsOf (magnitude v).toNat).length - 1 - 0) % 10 := by
        rw [first, UInt8.toNat_ofNat']
        omega
      rw [decide_eq_false negative, decide_eq_false_iff_not, signExtend_of_small (by omega)]
      intro isMinus
      have minus : (byteReg (str.bytes 0)).toNat = 45 := isMinus ▸ rfl
      rw [toNat_byteReg] at minus
      omega
  have at_ : (if decide (v.toInt < 0) then 1 else 0 : Register).toNat = signLength v := by
    rw [signLength, ilt_zero_eq]
    cases decide (v.toInt < 0) <;> rfl
  obtain ⟨s, ended, parsed⟩ := digits_parsed at_ lt_pow_length small chars terminated (by omega)
    (show _ < fuel by omega)
  have read := parsed.read
  have value := parsed.value
  rw [Nat.sub_self, Nat.pow_zero, Nat.div_one] at value
  have valid : ige s.pos (flag (decide (v.toInt < 0)) + 1) = true := by
    have minLen : (flag (decide (v.toInt < 0)) + 1).toNat = signLength v + 1 := by
      rw [signLength, ilt_zero_eq]
      cases decide (v.toInt < 0) <;> rfl
    rw [ige_eq (by omega) (by omega), decide_eq_true_iff]
    omega
  have restored := restore_sign value
  have status_ :
    (if ige s.pos (flag (decide (v.toInt < 0)) + 1) then 0 else -1 : Register).toNat = 0 := by
    rw [valid]
    rfl
  refine ⟨⟨value'.bytes.store 0 v.toNat 8⟩, ⟨status.bytes.store 0 0 8⟩, ?_,
    Buffer.load_store (by have := v.isLt; omega),
    Buffer.load_store (by decide)⟩
  simp only [stringToInt, loaded, Option.bind_eq_bind, Option.bind_some, sign, ended, store_int,
    restored, status_]
  rfl

/-- The text is the decimal one, and reading it gives the value back. -/
def DecimalRoundTrips (fuel : Nat) (value : Allocation 8) (tmp str : Allocation 32)
    (length value' status : Allocation 8) :
    Prop :=
  ∃ str' length', intToString fuel value tmp str length = some (str', length') ∧
    HoldsText str'.bytes (decimal (intIn value).toInt) ∧
    length'.bytes.load 0 8 = (decimal (intIn value).toInt).length ∧
    ∃ result status', stringToInt fuel str' value' status = some (result, status') ∧
      result.bytes.load 0 8 = value.bytes.load 0 8 ∧ status'.bytes.load 0 8 = 0

/-- The least value is its own negation, and its digits come out negative. -/
theorem least_not_written (least : (intIn value).toInt = -2 ^ 63) (enough : 20 < fuel) :
    ∃ str' length', intToString fuel value tmp str length = some (str', length') ∧
      ¬ HoldsText str'.bytes (decimal (intIn value).toInt) := by
  have value_ : intIn value = BitVec.ofInt 64 (-2 ^ 63) :=
    BitVec.eq_of_toInt_eq (least.trans (by decide))
  have negated : (if ilt (intIn value) 0 then 0 - intIn value else intIn value) =
    BitVec.ofInt 64 (-2 ^ 63) := by
    rw [value_]
    decide
  have written := @intToString_eq value length tmp str fuel 19 _ _ rfl negated
    (by decide +kernel) (by decide +kernel)
    (by decide) (by decide) (by omega)
  refine ⟨_, _, written, fun holds => ?_⟩
  have text : decimal (-2 ^ 63) = [45, 57, 50, 50, 51, 51, 55, 50, 48, 51, 54, 56, 53, 52, 55,
    55, 53, 56, 48, 56] := by
    norm_num [decimal, digitsOf]
    decide
  have sign : signLength (intIn value) = 1 := by
    rw [signLength, value_]
    decide
  have chars := holds.chars
  rw [least, text, sign] at chars
  -- the first digit of the text is not the one that was taken off last
  have second := congrArg (fun l => l.getD 1 0) chars
  have copied := @Buffer.copy_at (withSign (intIn value) str.bytes)
    (fun j => digitChar (BitVec.ofInt 64 (-2 ^ 63)) (19 - 1 - j)) 0 1 19 0 (by decide)
  have wrong : digitChar 9223372036854775808#64 18 = 39 := by decide +kernel
  simp [Buffer.bytes, wrong] at second copied
  rw [copied] at second
  exact absurd second (by decide)

/-- The round trip succeeds for every value but the least. -/
theorem decimalRoundTrips_iff (enough : 20 < fuel) :
    DecimalRoundTrips fuel value tmp str length value' status ↔ (intIn value).toInt ≠ -2 ^ 63 := by
  constructor
  · rintro ⟨str', length', ended, holds, -⟩ least
    obtain ⟨_, _, ended', fails⟩ := @least_not_written fuel value length tmp str least enough
    rw [ended] at ended'
    obtain ⟨rfl, rfl⟩ := Prod.mk.inj (Option.some.inj ended')
    exact fails holds
  · intro notLeast
    obtain ⟨str', length', ended, holds, size⟩ :=
      @intToString_writes fuel value length tmp str notLeast enough
    obtain ⟨result, status', read, same, ok⟩ :=
      @stringToInt_reads fuel value' status str' _ (magnitude_small notLeast)
      holds enough
    exact ⟨str', length', ended, holds, size, result, status', read, same.trans toNat_intIn, ok⟩

/-- A negative number. -/
theorem decimalRoundTrips_iff_negative :
    DecimalRoundTrips 30 (intOf (2 ^ 64 - 42)) ⟨fun _ => 0⟩ ⟨fun _ => 0⟩ (intOf 0) (intOf 0)
      (intOf 0) ↔
      (intIn (intOf (2 ^ 64 - 42))).toInt ≠ -2 ^ 63 :=
  decimalRoundTrips_iff (by decide)

/-- The least value has no decimal text. -/
theorem intToString_least : ¬ ∃ fuel > 20,
    DecimalRoundTrips fuel (intOf (2 ^ 63)) ⟨fun _ => 0⟩ ⟨fun _ => 0⟩ (intOf 0) (intOf 0)
      (intOf 0) := by
  rintro ⟨fuel, enough, str', length', ended, holds, -⟩
  have least : (intIn (intOf (2 ^ 63))).toInt = -2 ^ 63 := by
    rw [intIn, load_intOf (by decide)]
    decide
  obtain ⟨_, _, ended', fails⟩ := least_not_written least enough
  rw [ended] at ended'
  obtain ⟨rfl, rfl⟩ := Prod.mk.inj (Option.some.inj ended')
  exact fails holds

end RoundTrip

end Sigil.Stdlib
