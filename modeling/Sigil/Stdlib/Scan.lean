import Sigil.Flow.Texts
import Sigil.Stdlib.Registers

/-!
# Text lengths

Counters and loaded characters, and the loop that `concat`, `find` and `substring` take the
length of a text with.
A handle of eight bytes that holds a counter is a register here. The bytes of a text are only
compared
for being equal, so it does not matter which names hold them with their sign.
-/

namespace Sigil.Stdlib

open Flow

section Counters

variable {i j n size : Nat} {bound v : Register} {a : Allocation size}

/-- A counter. -/
abbrev count (n : Nat) : Register := BitVec.ofNat 64 n

/-- Counting begins at zero. -/
theorem count_zero : count 0 = 0 := rfl

/-- Counting goes on by one. -/
theorem count_succ : count i + 1 = count (i + 1) := (BitVec.ofNat_add i 1).symm

/-- Counts are added as numbers. -/
theorem count_add : count i + count j = count (i + j) := (BitVec.ofNat_add i j).symm

/-- A small count is its number. -/
theorem toNat_count (small : i < 2 ^ 63) : (count i).toNat = i := by
  rw [BitVec.toNat_ofNat, Nat.mod_eq_of_lt (by omega)]

/-- Small counts are equal as their numbers are. -/
theorem count_inj (small : i < 2 ^ 63) (small' : j < 2 ^ 63) : count i = count j ↔ i = j := by
  rw [← BitVec.toNat_inj, toNat_count small, toNat_count small']

/-- A count is compared with a bound as its number is. -/
theorem ige_count (upto : bound.toNat = n) (small : i < 2 ^ 63) (small' : n < 2 ^ 63) :
    ige (count i) bound = decide (n ≤ i) := by
  rw [ige_eq (by rwa [toNat_count small]) (by rwa [upto]), toNat_count small, upto]

/-- Small counts are compared as their numbers are. -/
theorem ige_counts (small : i < 2 ^ 63) (small' : n < 2 ^ 63) :
    ige (count i) (count n) = decide (n ≤ i) :=
  ige_count (toNat_count small') small small'

/-- The test of a loop that goes up to a bound, in front of the bound. -/
theorem ige_before (upto : bound.toNat = n) (below : i < n) (small : n < 2 ^ 63) :
    ige (count i) bound = false := by
  rw [ige_count upto (below.trans small) small, decide_eq_false (Nat.not_le_of_lt below)]

/-- In front of the bound the comparison fails. -/
theorem ige_counts_before (below : i < n) (small : n < 2 ^ 63) : ige (count i) (count n) = false :=
  ige_before (toNat_count small) below small

/-- Small counts are compared as their numbers are. -/
theorem ilt_counts (small : i < 2 ^ 63) (small' : n < 2 ^ 63) :
    ilt (count i) (count n) = decide (i < n) := by
  have counted := toNat_count small
  have counted' := toNat_count small'
  rw [ilt, BitVec.slt_eq_decide, BitVec.toInt_eq_toNat_of_lt (by omega),
    BitVec.toInt_eq_toNat_of_lt (by omega),
    counted, counted']
  simp

/-- A small count is its number with a sign. -/
theorem toInt_count (small : i < 2 ^ 63) : (count i).toInt = i := by
  have counted := toNat_count small
  rw [BitVec.toInt_eq_toNat_of_lt (by omega), counted]

/-- A register that is not negative is a counter. -/
theorem eq_count {r : Register} (positive : 0 ≤ r.toInt) :
    r = count r.toInt.toNat ∧ r.toInt.toNat < 2 ^ 63 := by
  have half : 2 * r.toNat < 2 ^ 64 := by
    have below := r.isLt
    rw [BitVec.toInt_eq_toNat_cond] at positive
    split_ifs at positive <;> omega
  rw [BitVec.toInt_eq_toNat_of_lt half, Int.toNat_natCast]
  exact ⟨by rw [count, BitVec.ofNat_toNat, BitVec.setWidth_eq], by omega⟩

/-- Counts are subtracted as numbers. -/
theorem count_sub (le : j ≤ i) : count i - count j = count (i - j) := by
  obtain ⟨k, rfl⟩ := Nat.exists_eq_add_of_le le
  rw [← count_add, Nat.add_sub_cancel_left, BitVec.add_comm, BitVec.add_sub_cancel]

/-- Small counts are divided as numbers. -/
theorem count_sdiv (small : i < 2 ^ 63) (small' : j < 2 ^ 63) :
    (count i).sdiv (count j) = count (i / j) := by
  have counted := toNat_count small
  have counted' := toNat_count small'
  rw [BitVec.sdiv_eq, msb_eq_false (by omega), msb_eq_false (by omega)]
  apply BitVec.eq_of_toNat_eq
  have le : i / j < 2 ^ 63 := (Nat.div_le_self i j).trans_lt small
  have quotient := toNat_count le
  change (count i / count j).toNat = _
  rw [BitVec.toNat_udiv, counted, counted', quotient]

/-- Small counts leave the remainder of their numbers. -/
theorem count_srem (small : i < 2 ^ 63) (small' : j < 2 ^ 63) :
    (count i).srem (count j) = count (i % j) := by
  have counted := toNat_count small
  have counted' := toNat_count small'
  rw [BitVec.srem_eq, msb_eq_false (by omega), msb_eq_false (by omega)]
  apply BitVec.eq_of_toNat_eq
  have le : i % j < 2 ^ 63 := (Nat.mod_le i j).trans_lt small
  have remainder := toNat_count le
  change (count i % count j).toNat = _
  rw [BitVec.toNat_umod, counted, counted', remainder]

/-- A register that holds a byte as it is loaded. -/
def charReg (b : UInt8) : Register := b.toBitVec.signExtend 64

/-- Different characters are in different registers. -/
theorem charReg_inj {b c : UInt8} : charReg b = charReg c ↔ b = c := by
  refine ⟨fun same => ?_, fun same => congrArg charReg same⟩
  rw [← @ofNat_signExtend b, ← @ofNat_signExtend c]
  exact congrArg (fun r : Register => UInt8.ofNat r.toNat) same

/-- The register of a character is zero when the character is. -/
theorem charReg_eq_zero {b : UInt8} : charReg b = 0 ↔ b = 0 := charReg_inj (c := 0)

/-- The byte of a char register. -/
@[simp] theorem ofNat_charReg {b : UInt8} : UInt8.ofNat (charReg b).toNat = b := ofNat_signExtend

/-- Masking a char register gives the byte register. -/
@[simp] theorem charReg_and_255 {b : UInt8} : charReg b &&& 255 = byteReg b := signExtend_and_255

/-- A character inside the allocation is loaded. -/
theorem load_char (inside : i < size) (small : i < 2 ^ 63) :
    a.load 1 (count i) = some (charReg (a.bytes i)) := by
  have counted := toNat_count small
  rw [load_byte (by omega), counted]
  rfl

/-- A load outside the allocation aborts. -/
theorem load_char_outside (outside : size ≤ i) (small : i < 2 ^ 63) :
    a.load 1 (count i) = none := by
  have counted := toNat_count small
  exact if_neg (by omega)

/-- A character is stored inside the allocation. -/
theorem store_char (inside : i < size) (small : i < 2 ^ 63) :
    a.store v 1 (count i) = some ⟨Function.update a.bytes i (UInt8.ofNat v.toNat)⟩ := by
  have counted := toNat_count small
  rw [Allocation.store_byte (by omega), counted]

/-- A store outside the allocation aborts. -/
theorem store_char_outside (outside : size ≤ i) (small : i < 2 ^ 63) :
    a.store v 1 (count i) = none := by
  have counted := toNat_count small
  exact store_outside (by omega)

/-- The integer stored is the integer in the buffer. -/
theorem intIn_store (r : Register) (a : Allocation 8) : intIn ⟨a.bytes.store 0 r.toNat 8⟩ = r := by
  rw [intIn, Buffer.load_store r.isLt, BitVec.ofNat_toNat, BitVec.setWidth_eq]

end Counters

section Lengths

variable {size fuel : Nat} {a : Allocation size} {max : Register}

/-- `get_len` and `inc_len` -/
def lengthBody (a : Allocation size) (max : Register) (len : Register) :
    Option (Register ⊕ Register) := do
  let byte ← a.load 1 len
  if byte = 0 then return .inr len
  let new_len := len + 1
  if ige new_len max then return .inr new_len
  return .inl new_len

def getLength (fuel : Nat) (a : Allocation size) (max : Register) : Option Register :=
  exits (lengthBody a max) fuel 0

/-- The length of a text, and of a buffer without a null. -/
theorem getLength_eq (upto : max.toNat = size) (some_ : 0 < size) (small : size < 2 ^ 63)
    (enough : size < fuel) :
    getLength fuel a max = some (count (a.bytes.text size).length) := by
  obtain ⟨n, length⟩ : ∃ n, (a.bytes.text size).length = n := ⟨_, rfl⟩
  have le : n ≤ size := length ▸ Buffer.length_text_le
  have nonzero : ∀ i < n, charReg (a.bytes i) ≠ 0 := fun i below => by
    rw [Ne, charReg_eq_zero]
    exact Buffer.text_ne_zero (length ▸ below)
  have next : ∀ i, i < n → i + 1 < size → lengthBody a max (count i) =
    some (.inl (count (i + 1))) := by
    intro i below before
    simp only [lengthBody, load_char (show i < size by omega) (by omega), Option.bind_eq_bind,
      Option.bind_some,
      if_neg (nonzero i below), count_succ, ige_count upto (show i + 1 < 2 ^ 63 by omega) small]
    rw [decide_eq_false (by omega)]
    rfl
  rw [length]
  obtain short | rfl := Nat.lt_or_eq_of_le le
  · have null : charReg (a.bytes n) = 0 :=
      charReg_eq_zero.mpr (length ▸ Buffer.text_end (length ▸ short))
    refine exits_along_leave (p := count) (fun i below => next i below (by omega)) ?_ (by omega)
    simp only [lengthBody, load_char short (by omega), Option.bind_eq_bind, Option.bind_some,
      if_pos null]
    rfl
  · obtain ⟨m, rfl⟩ : ∃ m, n = m + 1 := ⟨n - 1, by omega⟩
    refine exits_along_leave (p := count) (n := m) (fun i below => next i (by omega) (by omega))
      ?_ (by omega)
    simp only [lengthBody, load_char (Nat.lt_succ_self m) (by omega), Option.bind_eq_bind,
      Option.bind_some,
      if_neg (nonzero m (Nat.lt_succ_self m)), count_succ, ige_count upto small small]
    rw [decide_eq_true (Nat.le_refl _)]
    rfl

/-- `get_data_len` and `check_data_byte` of `substring`, the same blocks of `trim`: the bound is
tested first -/
def lengthBeforeBody (a : Allocation size) (max : Register) (len : Register) :
    Option (Register ⊕ Register) := do
  if ige len max then return .inr len
  let byte ← a.load 1 len
  if byte = 0 then return .inr len
  return .inl (len + 1)

def getLengthBefore (fuel : Nat) (a : Allocation size) (max : Register) : Option Register :=
  exits (lengthBeforeBody a max) fuel 0

/-- The loop counts the text up to its terminator or the bound. -/
theorem getLengthBefore_eq (upto : max.toNat = size) (small : size < 2 ^ 63)
    (enough : size < fuel) :
    getLengthBefore fuel a max = some (count (a.bytes.text size).length) := by
  obtain ⟨n, length⟩ : ∃ n, (a.bytes.text size).length = n := ⟨_, rfl⟩
  have le : n ≤ size := length ▸ Buffer.length_text_le
  rw [length]
  refine exits_along_leave (n := n) (p := count) (fun i below => ?_) ?_ (by omega)
  · have char : charReg (a.bytes i) ≠ 0 :=
      charReg_eq_zero.not.mpr (Buffer.text_ne_zero (length.symm ▸ below))
    simp only [lengthBeforeBody, ige_count upto (show i < 2 ^ 63 by omega) small,
      load_char (show i < size by omega) (by omega), Option.bind_eq_bind, Option.bind_some,
        if_neg char, count_succ]
    rw [decide_eq_false (by omega)]
    rfl
  · simp only [lengthBeforeBody, ige_count upto (show n < 2 ^ 63 by omega) small]
    obtain short | rfl := Nat.lt_or_eq_of_le le
    · have null : charReg (a.bytes n) = 0 :=
        charReg_eq_zero.mpr (length ▸ Buffer.text_end (length ▸ short))
      simp only [load_char short (by omega), Option.bind_eq_bind, Option.bind_some, if_pos null,
        decide_eq_false (Nat.not_le_of_lt short)]
      rfl
    · rw [decide_eq_true (Nat.le_refl n)]
      rfl

end Lengths

section Copying

/-- The copy loops of `concat`, `substring` and `replace`: `len` bytes from one place on to
another place -/
def copyBody {m n : Nat} (src : Allocation m) (start len dest : Register)
    (s : Register × Allocation n) :
    Option (Register × Allocation n ⊕ Allocation n) := do
  if ige s.1 len then return .inr s.2
  let src_idx := start + s.1
  let byte ← src.load 1 src_idx
  let dest_idx := dest + s.1
  let result ← s.2.store byte 1 dest_idx
  return .inl (s.1 + 1, result)

variable {m n fuel f l d : Nat} {src : Allocation m} {result : Allocation n}

/-- The copying loop copies the range. -/
theorem exits_copyBody (inside : f + l ≤ m) (room : d + l ≤ n) (small : n < 2 ^ 63)
    (small' : m < 2 ^ 63) (enough : l < fuel) :
    exits (copyBody src (count f) (count l) (count d)) fuel (0, result) =
      some ⟨Buffer.copy src.bytes f result.bytes d l⟩ := by
  refine exits_along_leave (n := l) (p :=
    fun i => (count i, (⟨Buffer.copy src.bytes f result.bytes d i⟩ : Allocation n)))
    (fun i below => ?_) ?_ enough
  · simp only [copyBody, ige_counts (show i < 2 ^ 63 by omega) (show l < 2 ^ 63 by omega),
      count_add, count_succ,
      load_char (show f + i < m by omega) (by omega), Option.bind_eq_bind, Option.bind_some,
      store_char (show d + i < n by omega) (by omega), ofNat_charReg]
    rw [decide_eq_false (by omega), Buffer.copy]
    rfl
  · simp only [copyBody, ige_counts (show l < 2 ^ 63 by omega) (show l < 2 ^ 63 by omega)]
    rw [decide_eq_true (Nat.le_refl l)]
    rfl

end Copying

section Masks

variable {k : Nat} {a : Allocation k} {off v : Register}

/-- A byte that is loaded is a character. -/
theorem exists_char (loaded : a.load 1 off = some v) : ∃ c, v = charReg c := by
  rw [Allocation.load] at loaded
  split_ifs at loaded with inside
  have byte := @load_byte k a off inside
  rw [Allocation.load_inside inside] at byte
  exact ⟨_, (Option.some.inj loaded).symm.trans (Option.some.inj byte)⟩

/-- Registers that hold a byte without its sign are equal where the bytes are. -/
theorem byteReg_inj {c d : UInt8} : byteReg c = byteReg d ↔ c = d := by
  rw [← BitVec.toNat_inj, toNat_byteReg, toNat_byteReg, UInt8.toNat_inj]

/-- The copy loops of the map behaviors and `nloop` of `replace`: the byte is masked before it
is stored -/
def maskedCopyBody {m n : Nat} (src : Allocation m) (start len dest : Register)
    (s : Register × Allocation n) :
    Option (Register × Allocation n ⊕ Allocation n) := do
  if ige s.1 len then return .inr s.2
  let src_idx := start + s.1
  let byte ← src.load 1 src_idx
  let byte := byte &&& 255
  let dest_idx := dest + s.1
  let result ← s.2.store byte 1 dest_idx
  return .inl (s.1 + 1, result)

/-- The mask leaves what a store of one byte keeps. -/
theorem maskedCopyBody_eq {m n : Nat} {src : Allocation m} {start len dest : Register} :
    maskedCopyBody (n := n) src start len dest = copyBody src start len dest := by
  funext s
  rw [maskedCopyBody, copyBody]
  by_cases done : ige s.1 len = true
  · rw [if_pos done, if_pos done]
  rw [if_neg done, if_neg done]
  cases loaded : src.load 1 (start + s.1) with
  | none => simp only [loaded, Option.bind_eq_bind, Option.bind_none]
  | some v =>
      obtain ⟨c, rfl⟩ := exists_char loaded
      have same : s.2.store (charReg c &&& 255) 1 (dest + s.1) =
        s.2.store (charReg c) 1 (dest + s.1) := by
        rw [charReg_and_255, Allocation.store, Allocation.store]
        simp [Buffer.store]
      simp only [loaded, Option.bind_eq_bind, Option.bind_some, same]

end Masks

section Samples

variable {size : Nat}

/-- A buffer that starts with a text and has nulls behind it. -/
def holding (size : Nat) (text : List UInt8) : Allocation size := ⟨fun i => text.getD i 0⟩

/-- A buffer that holds a text has it. -/
theorem text_holding {text : List UInt8} (le : text.length ≤ size) (nonzero : ∀ c ∈ text, c ≠ 0) :
    (holding size text).bytes.text size = text := by
  have at_ : ∀ i (below : i < text.length), (holding size text).bytes i = text[i] :=
    fun i below => by
    simp [holding, below]
  have length : ((holding size text).bytes.text size).length = text.length :=
    Buffer.length_text le (fun i below => by
      rw [at_ i below]
      exact nonzero _ (List.getElem_mem below)) fun _ => by simp [holding]
  refine List.ext_getElem length fun i below below' => ?_
  rw [Buffer.getElem_text below, at_ i below']

/-- A buffer that starts with a text of ones. -/
def onesUpTo (size n : Nat) : Allocation size := ⟨fun i => if i < n then 1 else 0⟩

/-- The text of a buffer of ones is as long as they are many. -/
theorem length_onesUpTo {n : Nat} (le : n ≤ size) :
    ((onesUpTo size n).bytes.text size).length = n :=
  Buffer.length_text le (fun _ below => by simp [onesUpTo, below]) fun _ => by simp [onesUpTo]

end Samples

end Sigil.Stdlib
