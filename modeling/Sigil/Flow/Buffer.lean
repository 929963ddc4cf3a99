import Mathlib

/-!
# Byte buffers

Buffers as functions from offsets to bytes: words stored with the low byte first, loops that
copy and compare bytes, and which offsets each of them leaves alone.
-/

namespace Flow

abbrev Buffer := Nat → UInt8

namespace Buffer

variable {b b' src : Buffer} {a off s d n m i v : Nat} {x : UInt8}

/-- The word in `n` bytes from an offset on. -/
def load (b : Buffer) (off : Nat) : Nat → Nat
  | 0 => 0
  | n + 1 => load b off n + 256 ^ n * (b (off + n)).toNat

/-- A word written to `n` bytes from an offset on. -/
def store (b : Buffer) (off v : Nat) : Nat → Buffer
  | 0 => b
  | n + 1 => Function.update (store b off v n) (off + n) (UInt8.ofNat (v / 256 ^ n))

/-- The loop that copies `n` bytes to an offset. -/
def copy (src : Buffer) (s : Nat) (b : Buffer) (d : Nat) : Nat → Buffer
  | 0 => b
  | n + 1 => Function.update (copy src s b d n) (d + n) (src (s + n))

/-- The loop that compares `n` bytes. -/
def same (b : Buffer) (s : Nat) (b' : Buffer) (d : Nat) : Nat → Bool
  | 0 => true
  | n + 1 => same b s b' d n && b (s + n) == b' (d + n)

/-- The `n` bytes from an offset on. -/
def bytes (b : Buffer) (off n : Nat) : List UInt8 := (List.range n).map fun i => b (off + i)

@[simp] theorem length_bytes : (b.bytes off n).length = n := by simp [bytes]

/-- Two ranges are the same byte by byte. -/
theorem bytes_eq_iff : b.bytes s n = b'.bytes d n ↔ ∀ i < n, b (s + i) = b' (d + i) := by
  simp [bytes]

/-- A word of `n` bytes is small. -/
theorem load_lt : b.load off n < 256 ^ n := by
  induction n with
  | zero => exact Nat.one_pos
  | succ n ih =>
      have byte : (b (off + n)).toNat ≤ 255 := Nat.le_of_lt_succ (b (off + n)).toNat_lt
      have high := Nat.mul_le_mul_left (256 ^ n) byte
      rw [load, Nat.pow_succ]
      omega

/-- A word depends on its bytes. -/
theorem load_congr (same : ∀ i < n, b (s + i) = b' (d + i)) : b.load s n = b'.load d n := by
  induction n with
  | zero => rfl
  | succ n ih =>
      rw [load, load, ih fun i below => same i (Nat.lt_succ_of_lt below),
        same n (Nat.lt_succ_self n)]

/-- A store leaves the other bytes. -/
theorem store_of_outside (outside : a < off ∨ off + n ≤ a) : b.store off v n a = b a := by
  induction n with
  | zero => rfl
  | succ n ih =>
      rw [store, Function.update_of_ne (by omega)]
      exact ih (by omega)

/-- A store writes the bytes of the word. -/
theorem store_at (below : i < n) : b.store off v n (off + i) = UInt8.ofNat (v / 256 ^ i) := by
  induction n with
  | zero => exact absurd below (Nat.not_lt_zero i)
  | succ n ih =>
      rw [store]
      by_cases last : i = n
      · rw [last, Function.update_self]
      · rw [Function.update_of_ne (by omega)]
        exact ih (by omega)

/-- A word that fits is read back as it was written. -/
theorem load_store (fits : v < 256 ^ n) : (b.store off v n).load off n = v := by
  have read : ∀ m ≤ n, (b.store off v n).load off m = v % 256 ^ m := by
    intro m
    induction m with
    | zero => intro _; rw [load, Nat.pow_zero, Nat.mod_one]
    | succ m ih =>
        intro below
        have digit : (UInt8.ofNat (v / 256 ^ m)).toNat = v / 256 ^ m % 256 := UInt8.toNat_ofNat'
        rw [load, ih (Nat.le_of_succ_le below), store_at below, digit, Nat.mod_pow_succ (b := 256)]
  rw [read n (Nat.le_refl n), Nat.mod_eq_of_lt fits]

/-- A copy leaves the other bytes. -/
theorem copy_of_outside (outside : a < d ∨ d + n ≤ a) : copy src s b d n a = b a := by
  induction n with
  | zero => rfl
  | succ n ih =>
      rw [copy, Function.update_of_ne (by omega)]
      exact ih (by omega)

/-- A copy writes the bytes of its source. -/
theorem copy_at (below : i < n) : copy src s b d n (d + i) = src (s + i) := by
  induction n with
  | zero => exact absurd below (Nat.not_lt_zero i)
  | succ n ih =>
      rw [copy]
      by_cases last : i = n
      · rw [last, Function.update_self]
      · rw [Function.update_of_ne (by omega)]
        exact ih (by omega)

/-- A byte behind a copy. -/
theorem copy_apply : copy src s b d n a = if d ≤ a ∧ a < d + n then src (s + (a - d)) else b a := by
  split_ifs with inside
  · rw [show a = d + (a - d) by omega, copy_at (by omega), Nat.add_sub_cancel_left]
  · exact copy_of_outside (by omega)

/-- A copy depends on the range it reads. -/
theorem copy_congr {src' : Buffer} (same : ∀ i < n, src (s + i) = src' (s + i)) :
    copy src s b d n = copy src' s b d n := by
  induction n with
  | zero => rfl
  | succ n ih =>
      rw [copy, copy, ih fun i below => same i (Nat.lt_succ_of_lt below),
        same n (Nat.lt_succ_self n)]

/-- A range is the one part and the other. -/
theorem bytes_append : b.bytes s (n + m) = b.bytes s n ++ b.bytes (s + n) m := by
  simp [bytes, List.range_add, Function.comp_def, Nat.add_assoc]

/-- The range that has been copied. -/
theorem bytes_copy : (copy src s b d n).bytes d n = src.bytes s n :=
  bytes_eq_iff.mpr fun _ below => copy_at below

/-- A range depends on its bytes. -/
theorem bytes_congr (same : ∀ i < n, b (s + i) = b' (s + i)) : b.bytes s n = b'.bytes s n :=
  bytes_eq_iff.mpr same

section Outside

/-! What is read elsewhere than it was written. -/

/-- A store leaves the words elsewhere. -/
theorem load_store_of_outside (outside : s + n ≤ d ∨ d + m ≤ s) :
    (b.store d v m).load s n = b.load s n :=
  load_congr fun i below => store_of_outside (by omega)

/-- A copy leaves the words elsewhere. -/
theorem load_copy_of_outside (outside : s + n ≤ d ∨ d + m ≤ s) :
    (copy src a b d m).load s n = b.load s n :=
  load_congr fun i below => copy_of_outside (by omega)

/-- A byte leaves the words elsewhere. -/
theorem load_update_of_outside (outside : a < s ∨ s + n ≤ a) :
    load (Function.update b a x) s n = b.load s n :=
  load_congr fun i below => Function.update_of_ne (by omega) _ _

/-- A store leaves the ranges elsewhere. -/
theorem bytes_store_of_outside (outside : s + n ≤ d ∨ d + m ≤ s) :
    (b.store d v m).bytes s n = b.bytes s n :=
  bytes_congr fun i below => store_of_outside (by omega)

/-- A byte leaves the ranges elsewhere. -/
theorem bytes_update_of_outside (outside : a < s ∨ s + n ≤ a) : bytes (Function.update b a x) s
    n = b.bytes s n :=
  bytes_congr fun i below => Function.update_of_ne (by omega) _ _

/-- A copy leaves the ranges elsewhere. -/
theorem bytes_copy_of_outside (outside : s + n ≤ d ∨ d + m ≤ s) :
    (copy src a b d m).bytes s n = b.bytes s n :=
  bytes_congr fun i below => copy_of_outside (by omega)

end Outside

/-- The comparison byte by byte decides about the ranges. -/
theorem same_iff : same b s b' d n = true ↔ b.bytes s n = b'.bytes d n := by
  rw [bytes_eq_iff]
  induction n with
  | zero => simp [same]
  | succ n ih =>
      rw [same, Bool.and_eq_true, beq_iff_eq, ih]
      constructor
      · rintro ⟨before, last⟩ i below
        obtain earlier | rfl := Nat.lt_succ_iff_lt_or_eq.mp below
        · exact before i earlier
        · exact last
      · exact fun all => ⟨fun i below => all i (Nat.lt_succ_of_lt below),
          all n (Nat.lt_succ_self n)⟩

end Buffer

end Flow
