import Mathlib

/-!
# SHA-256

The hash function of FIPS 180-4: padding, message schedule, compression and digest, on 32-bit
words and lists of bytes.
-/

namespace Flow.Sha256

abbrev Word := BitVec 32

/-- Eight words under the names of the working variables. -/
structure Eight (α : Type*) where
  a : α
  b : α
  c : α
  d : α
  e : α
  f : α
  g : α
  h : α
  deriving DecidableEq

namespace Eight

variable {α β γ : Type*}

def map (f : α → β) (v : Eight α) : Eight β :=
  ⟨f v.a, f v.b, f v.c, f v.d, f v.e, f v.f, f v.g, f v.h⟩

def zipWith (f : α → β → γ) (v : Eight α) (w : Eight β) : Eight γ :=
  ⟨f v.a w.a, f v.b w.b, f v.c w.c, f v.d w.d, f v.e w.e, f v.f w.f, f v.g w.g, f v.h w.h⟩

def toList (v : Eight α) : List α := [v.a, v.b, v.c, v.d, v.e, v.f, v.g, v.h]

end Eight

section Functions

def ch (x y z : Word) : Word := (x &&& y) ^^^ (~~~x &&& z)

def maj (x y z : Word) : Word := (x &&& y) ^^^ (x &&& z) ^^^ (y &&& z)

def bigSigma0 (x : Word) : Word := x.rotateRight 2 ^^^ x.rotateRight 13 ^^^ x.rotateRight 22

def bigSigma1 (x : Word) : Word := x.rotateRight 6 ^^^ x.rotateRight 11 ^^^ x.rotateRight 25

def sigma0 (x : Word) : Word := x.rotateRight 7 ^^^ x.rotateRight 18 ^^^ x >>> 3

def sigma1 (x : Word) : Word := x.rotateRight 17 ^^^ x.rotateRight 19 ^^^ x >>> 10

end Functions

section Constants

def constants : List Word :=
  [0x428a2f98, 0x71374491, 0xb5c0fbcf, 0xe9b5dba5, 0x3956c25b, 0x59f111f1, 0x923f82a4, 0xab1c5ed5,
   0xd807aa98, 0x12835b01, 0x243185be, 0x550c7dc3, 0x72be5d74, 0x80deb1fe, 0x9bdc06a7, 0xc19bf174,
   0xe49b69c1, 0xefbe4786, 0x0fc19dc6, 0x240ca1cc, 0x2de92c6f, 0x4a7484aa, 0x5cb0a9dc, 0x76f988da,
   0x983e5152, 0xa831c66d, 0xb00327c8, 0xbf597fc7, 0xc6e00bf3, 0xd5a79147, 0x06ca6351, 0x14292967,
   0x27b70a85, 0x2e1b2138, 0x4d2c6dfc, 0x53380d13, 0x650a7354, 0x766a0abb, 0x81c2c92e, 0x92722c85,
   0xa2bfe8a1, 0xa81a664b, 0xc24b8b70, 0xc76c51a3, 0xd192e819, 0xd6990624, 0xf40e3585, 0x106aa070,
   0x19a4c116, 0x1e376c08, 0x2748774c, 0x34b0bcb5, 0x391c0cb3, 0x4ed8aa4a, 0x5b9cca4f, 0x682e6ff3,
   0x748f82ee, 0x78a5636f, 0x84c87814, 0x8cc70208, 0x90befffa, 0xa4506ceb, 0xbef9a3f7, 0xc67178f2]

def initial : Eight Word :=
  ⟨0x6a09e667, 0xbb67ae85, 0x3c6ef372, 0xa54ff53a, 0x510e527f, 0x9b05688c, 0x1f83d9ab, 0x5be0cd19⟩

/-- The first 64 primes, found by trial division. -/
def primes : List Nat :=
  (List.range 312).filter fun p => 2 ≤ p ∧ ∀ d : Nat, d < 18 → 2 ≤ d → d < p → ¬ d ∣ p

/-- The primes that the constants are made of. -/
theorem mem_primes_iff {p : Nat} : p ∈ primes ↔ p < 312 ∧ p.Prime := by
  rw [primes, List.mem_filter, List.mem_range, decide_eq_true_iff, Nat.prime_def_le_sqrt]
  refine and_congr_right fun below => and_congr_right fun two =>
    ⟨fun all d le root => ?_, fun all d _ le less divides => ?_⟩
  · have square : d * d ≤ p := Nat.le_sqrt.mp root
    exact all d (by nlinarith) le (by nlinarith)
  · obtain ⟨q, rfl⟩ := divides
    obtain small | small := Nat.le_total d q
    · exact all d le (Nat.le_sqrt.mpr (Nat.mul_le_mul_left d small)) (Nat.dvd_mul_right d q)
    · have some : 2 ≤ q := by
        by_contra short
        interval_cases q <;> omega
      exact all q some (Nat.le_sqrt.mpr (Nat.mul_le_mul_right q small)) (Nat.dvd_mul_left q d)

@[simp] theorem length_constants : constants.length = 64 := rfl

/-- There are 64 of them. -/
theorem length_primes : primes.length = 64 := by decide +kernel

/-- The constants are the first 32 bits of the fractional parts of the cube roots of the primes. -/
theorem constants_cubeRoots : ∀ kp ∈ constants.zip primes, ∃ whole < 8,
    (2 ^ 32 * whole + kp.1.toNat) ^ 3 ≤ 2 ^ 96 * kp.2 ∧
      2 ^ 96 * kp.2 < (2 ^ 32 * whole + kp.1.toNat + 1) ^ 3 := by
  decide +kernel

/-- The initial words are the first 32 bits of the fractional parts of the square roots. -/
theorem initial_squareRoots : ∀ hp ∈ initial.toList.zip primes, ∃ whole < 8,
    (2 ^ 32 * whole + hp.1.toNat) ^ 2 ≤ 2 ^ 64 * hp.2 ∧
      2 ^ 64 * hp.2 < (2 ^ 32 * whole + hp.1.toNat + 1) ^ 2 := by
  decide +kernel

end Constants

section Padding

/-- A number in `n` bytes, the high byte first. -/
def bigEndian (n v : Nat) : List UInt8 :=
  (List.range n).map fun i => UInt8.ofNat (v / 256 ^ (n - 1 - i))

/-- The zero bytes between the bit `1` and the length. -/
def zeros (length : Nat) : Nat := (119 - length % 64) % 64

/-- The bit `1`, zeros, and the length in bits. -/
def pad (message : List UInt8) : List UInt8 :=
  message ++ 0x80 :: (List.replicate (zeros message.length) 0 ++ bigEndian 8 (8 * message.length))

end Padding

/-- Byte `i` of a padded message. -/
def byteAt (padded : List UInt8) (i : Nat) : BitVec 8 := (padded.getD i 0).toBitVec

/-- The four bytes from `i` on as a word, the high byte first. -/
def wordAt (padded : List UInt8) (i : Nat) : Word :=
  byteAt padded i ++ byteAt padded (i + 1) ++ byteAt padded (i + 2) ++ byteAt padded (i + 3)

/-- The sixteen words of block `i`. -/
def block (padded : List UInt8) (i : Nat) : List Word :=
  (List.range 16).map fun t => wordAt padded (64 * i + 4 * t)

/-- The schedule of a block with `n` words more. -/
def schedule (words : List Word) : Nat → List Word
  | 0 => words
  | n + 1 =>
      let w := schedule words n
      w ++ [sigma1 (w.getD (n + 14) 0) + w.getD (n + 9) 0 + sigma0 (w.getD (n + 1) 0) + w.getD n 0]

def round (k w : Word) (v : Eight Word) : Eight Word :=
  let t1 := v.h + bigSigma1 v.e + ch v.e v.f v.g + k + w
  let t2 := bigSigma0 v.a + maj v.a v.b v.c
  ⟨t1 + t2, v.a, v.b, v.c, v.d + t1, v.e, v.f, v.g⟩

/-- The working variables after the first rounds. -/
def roundsOf (w : List Word) (v : Eight Word) : Nat → Eight Word
  | 0 => v
  | t + 1 => round (constants.getD t 0) (w.getD t 0) (roundsOf w v t)

def compress (v : Eight Word) (words : List Word) : Eight Word :=
  v.zipWith (· + ·) (roundsOf (schedule words 48) v 64)

/-- The hash value after the first blocks. -/
def hashAfter (padded : List UInt8) : Nat → Eight Word
  | 0 => initial
  | i + 1 => compress (hashAfter padded i) (block padded i)

/-- The digest of a message. -/
def digest (message : List UInt8) : List UInt8 :=
  let padded := pad message
  (hashAfter padded (padded.length / 64)).toList.flatMap fun word => bigEndian 4 word.toNat

example : digest "abc".toUTF8.toList =
    [0xba, 0x78, 0x16, 0xbf, 0x8f, 0x01, 0xcf, 0xea, 0x41, 0x41, 0x40, 0xde, 0x5d, 0xae, 0x22, 0x23,
     0xb0, 0x03, 0x61, 0xa3, 0x96, 0x17, 0x7a, 0x9c, 0xb4, 0x10, 0xff, 0x61, 0xf2, 0x00, 0x15,
       0xad] := by
  decide +kernel

section Lengths

variable {words : List Word} {message : List UInt8} {n k j t : Nat}

@[simp] theorem length_bigEndian {v : Nat} : (bigEndian n v).length = n := by simp [bigEndian]

/-- A digest has 32 bytes. -/
theorem length_digest (message : List UInt8) : (digest message).length = 32 := by
  simp [digest, Eight.toList]

/-- The padded message. -/
theorem length_pad : (pad message).length = message.length + 1 + zeros message.length + 8 := by
  simp [pad]
  omega

@[simp] theorem length_schedule : (schedule words n).length = words.length + n := by
  induction n with
  | zero => rfl
  | succ n ih => simp [schedule, ih, Nat.add_assoc]

/-- The schedule grows at its end. -/
theorem schedule_getD (below : j < words.length + n) :
    (schedule words (n + k)).getD j 0 = (schedule words n).getD j 0 := by
  induction k with
  | zero => rfl
  | succ k ih =>
      rw [← Nat.add_assoc, schedule, List.getD_append _ _ _ _ (by simp; omega)]
      exact ih

/-- A schedule begins with its words. -/
theorem schedule_getD_words (below : j < words.length) :
    (schedule words n).getD j 0 = words.getD j 0 := by
  have grown := @schedule_getD words 0 n j below
  rwa [Nat.zero_add] at grown

/-- Every word behind the sixteen of the block is made of four before it. -/
theorem schedule_step (block : words.length = 16) (below : t < n) :
    (schedule words n).getD (t + 16) 0 =
    sigma1 ((schedule words n).getD (t + 14) 0) + (schedule words n).getD (t + 9) 0 +
      sigma0 ((schedule words n).getD (t + 1) 0) + (schedule words n).getD t 0 := by
  obtain ⟨k, rfl⟩ := Nat.exists_eq_add_of_lt below
  rw [show t + k + 1 = t + 1 + k by omega, schedule_getD (by omega), Nat.add_assoc t 1 k,
    @schedule_getD words t _ (t + 14) (by omega), @schedule_getD words t _ (t + 9) (by omega),
    @schedule_getD words t _ (t + 1) (by omega), @schedule_getD words t _ t (by omega), schedule,
    List.getD_append_right _ _ _ _ (by simp; omega)]
  simp [block, Nat.add_comm]

end Lengths

end Flow.Sha256
