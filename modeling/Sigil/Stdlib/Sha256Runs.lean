import Sigil.Stdlib.Sha256Words
import Sigil.Stdlib.Scan

/-!
# Runs of the SHA-256 behavior

Every loop over the scratch buffer keeps the constants and the padded message where they are,
fills the message schedule of one block, and takes the hash from one block to the next.
-/

namespace Sigil.Stdlib

open Flow Flow.Sha256

section Words

variable {b b' : Buffer} {a : Scratch} {i j k v : Nat} {w : Word} {r : Register}

/-- The word at an offset of a buffer. -/
def wordIn (b : Buffer) (i : Nat) : Word := BitVec.ofNat 32 (b.load i 4)

/-- Counts are multiplied as numbers. -/
theorem count_mul : count i * count j = count (i * j) := (BitVec.ofNat_mul i j).symm

/-- Four bytes are loaded as their word with its sign. -/
theorem load_word (inside : i + 4 ≤ 66560) :
    a.load 4 (count i) = some ((wordIn a.bytes i).signExtend 64) := by
  have counted := toNat_count (show i < 2 ^ 63 by omega)
  rw [Allocation.load_inside (by omega), counted]
  rfl

/-- A word is stored as its four bytes. -/
theorem store_word (inside : i + 4 ≤ 66560) :
    a.store (held w) 4 (count i) = some ⟨a.bytes.store i w.toNat 4⟩ := by
  have counted := toNat_count (show i < 2 ^ 63 by omega)
  rw [Allocation.store_inside (by omega), counted, toNat_held]

/-- The word stored is the word there. -/
theorem wordIn_store : wordIn (b.store i w.toNat 4) i = w := by
  rw [wordIn, Buffer.load_store w.isLt, BitVec.ofNat_toNat, BitVec.setWidth_eq]

/-- A word stored leaves the words beside it. -/
theorem wordIn_store_of_outside (outside : i + 4 ≤ j ∨ j + 4 ≤ i) :
    wordIn (b.store j v 4) i = wordIn b i :=
  congrArg (BitVec.ofNat 32) (Buffer.load_store_of_outside outside)

/-- Places with the same bytes hold the same word. -/
theorem wordIn_congr (same : ∀ k < 4, b (i + k) = b' (j + k)) : wordIn b i = wordIn b' j :=
  congrArg (BitVec.ofNat 32) (Buffer.load_congr same)

end Words

/-- A loop that counts from one number up to another. -/
theorem rounds_counts {σ : Type*} {counter : σ → Register} {body : σ → Option σ}
    {m n fuel : Nat} {s : σ}
    {holds : Nat → σ → Prop} (counts : ∀ i s, holds i s → counter s = count i) (small : n < 2 ^ 63)
    (step : ∀ i < n, ∀ s, holds i s → ∃ s', body s = some s' ∧ holds (i + 1) s')
      (start : holds m s) (le : m ≤ n)
    (enough : n - m < fuel) : ∃ s', rounds (fun s => ige (counter s) (count n)) body fuel s =
      some s' ∧ holds n s' := by
  refine rounds_counted (fun s now => ?_) (fun i below s now => ⟨?_, step i below s now⟩) start
    le enough
  · rw [counts n s now, ige_counts small small, decide_eq_true (Nat.le_refl n)]
  · rw [counts i s now, ige_counts_before below small]

section Schedules

variable {padded : List UInt8} {buf buf' : Scratch} {base t fuel : Nat} {s : Register × Scratch}

/-- Outside of the message schedule nothing changes. -/
def KeepsRest (buf buf' : Scratch) : Prop := ∀ i, i < 256 ∨ 512 ≤ i → buf'.bytes i = buf.bytes i

/-- A store to the schedule keeps the rest of the buffer. -/
theorem KeepsRest.store (keeps : KeepsRest buf buf') {v : Nat} (below : t < 64) :
    KeepsRest buf ⟨buf'.bytes.store (256 + 4 * t) v 4⟩ := fun i outside => by
  exact (Buffer.store_of_outside (by omega)).trans (keeps i outside)

/-- The schedule holds the first `t` of some words. -/
def Scheduled (words : List Word) (t : Nat) (buf : Scratch) : Prop :=
  ∀ j < t, wordIn buf.bytes (256 + 4 * j) = words.getD j 0

/-- A word stored behind the schedule extends it. -/
theorem Scheduled.store {words : List Word} (scheduled : Scheduled words t buf) {w : Word}
    (is_ : w = words.getD t 0) :
    Scheduled words (t + 1) ⟨buf.bytes.store (256 + 4 * t) w.toNat 4⟩ := fun j below => by
  obtain earlier | rfl := Nat.lt_succ_iff_lt_or_eq.mp below
  · rw [wordIn_store_of_outside (by omega)]
    exact scheduled j earlier
  · rw [wordIn_store, is_]

/-- The bytes of one block are in the buffer. -/
def HoldsBlock (padded : List UInt8) (base : Nat) (buf : Scratch) : Prop :=
  ∀ i < 64, buf.bytes (512 + base + i) = padded.getD (base + i) 0

/-- A word of the block, put together from its bytes. -/
theorem wlbody_eq (holds : HoldsBlock padded base buf) (below : t < 16)
    (inside : base + 64 ≤ 66048) :
    wlbody (count (base + 512)) (count t, buf) =
      some (count (t + 1), ⟨buf.bytes.store (256 + 4 * t) (wordAt padded (base + 4 * t)).toNat
        4⟩) := by
  have bytes : ∀ k < 4, buf.bytes (base + 512 + t * 4 + k) = padded.getD (base + 4 * t + k) 0 := by
    intro k small
    have here := holds (4 * t + k) (by omega)
    rwa [show 512 + base + (4 * t + k) = base + 512 + t * 4 + k by omega, ← Nat.add_assoc] at here
  have b0 := bytes 0 (by decide)
  have b1 := bytes 1 (by decide)
  have b2 := bytes 2 (by decide)
  have b3 := bytes 3 (by decide)
  have four : (4 : Register) = count 4 := rfl
  have one : (1 : Register) = count 1 := rfl
  have two : (2 : Register) = count 2 := rfl
  have three : (3 : Register) = count 3 := rfl
  have offset : (256 : Register) = count 256 := rfl
  rw [Nat.add_zero] at b0
  simp only [wlbody, four, one, two, three, offset, count_mul, count_add, Option.bind_eq_bind,
    Option.bind_some,
    load_char (show base + 512 + t * 4 < 66560 by omega) (by omega),
    load_char (show base + 512 + t * 4 + 1 < 66560 by omega) (by omega),
    load_char (show base + 512 + t * 4 + 2 < 66560 by omega) (by omega),
    load_char (show base + 512 + t * 4 + 3 < 66560 by omega) (by omega), charReg_and_255, b0,
      b1, b2, b3]
  have word : byteReg (padded.getD (base + 4 * t + 0) 0) <<< 24 ||| byteReg
    (padded.getD (base + 4 * t + 1) 0) <<< 16 |||
      byteReg (padded.getD (base + 4 * t + 2) 0) <<< 8 ||| byteReg
        (padded.getD (base + 4 * t + 3) 0) =
        held (wordAt padded (base + 4 * t)) := held_append _ _ _ _
  rw [word, show t * 4 + 256 = 256 + 4 * t by omega, store_word (by omega)]
  rfl

/-- The rotations of the two functions of the schedule. -/
theorem held_sigma0 (x : Word) : ((held x >>> 7 ||| held x <<< 25) &&& M) ^^^
    ((held x >>> 18 ||| held x <<< 14) &&& M) ^^^
    held x >>> 3 = held (sigma0 x) := by
  rw [@held_rotateRight x 25 7 (by decide) (by decide),
    @held_rotateRight x 14 18 (by decide) (by decide),
    held_shiftRight, held_xor, held_xor]
  rfl

/-- The code of the second small sigma computes it. -/
theorem held_sigma1 (x : Word) : ((held x >>> 17 ||| held x <<< 15) &&& M) ^^^
    ((held x >>> 19 ||| held x <<< 13) &&& M) ^^^
    held x >>> 10 = held (sigma1 x) := by
  rw [@held_rotateRight x 15 17 (by decide) (by decide),
    @held_rotateRight x 13 19 (by decide) (by decide),
    held_shiftRight, held_xor, held_xor]
  rfl

/-- A sum is masked once, at its end. -/
theorem held_add₄ (x y z w : Word) :
    (held x + held y + held z + held w) &&& M = held (x + y + z + w) := by
  rw [and_M]
  simp only [BitVec.setWidth_add _ _ (show 32 ≤ 64 by decide), setWidth_held]

/-- A word of the schedule made of four before it. -/
theorem webody_eq {words : List Word} (scheduled : Scheduled words (t + 16) buf)
    (below : t + 16 < 64) :
    webody (count (t + 16), buf) = some (count (t + 16 + 1), ⟨buf.bytes.store (256 + 4 * (t + 16))
      (words.getD t 0 + sigma0 (words.getD (t + 1) 0) + words.getD (t + 9) 0 +
        sigma1 (words.getD (t + 14) 0)).toNat 4⟩) := by
  have word : ∀ k j, k + j = 16 → 0 < j → wordIn buf.bytes ((t + k) * 4 + 256) =
    words.getD (t + k) 0 := by
    intro k j sum positive
    rw [← scheduled (t + k) (by omega)]
    congr 1
    omega
  have w16 := word 0 16 rfl (by decide)
  have four : (4 : Register) = count 4 := rfl
  have one : (1 : Register) = count 1 := rfl
  have offset : (256 : Register) = count 256 := rfl
  have back : ∀ k j, k + j = 16 → count (t + 16) - count j = count (t + k) := by
    intro k j sum
    rw [count_sub (by omega)]
    congr 1
    omega
  have t15 : count (t + 16) - 15 = count (t + 1) := back 1 15 rfl
  have t2 : count (t + 16) - 2 = count (t + 14) := back 14 2 rfl
  have t16 : count (t + 16) - 16 = count (t + 0) := back 0 16 rfl
  have t7 : count (t + 16) - 7 = count (t + 9) := back 9 7 rfl
  simp only [webody, t15, t2, t16, t7, four, offset, one, count_mul, count_add,
    Option.bind_eq_bind, Option.bind_some,
    load_word (show (t + 1) * 4 + 256 + 4 ≤ 66560 by omega),
      load_word (show (t + 14) * 4 + 256 + 4 ≤ 66560 by omega),
    load_word (show (t + 0) * 4 + 256 + 4 ≤ 66560 by omega),
      load_word (show (t + 9) * 4 + 256 + 4 ≤ 66560 by omega),
    word 1 15 rfl (by decide), word 14 2 rfl (by decide), word 9 7 rfl (by decide), w16,
      signExtend_and_M,
    held_sigma0, held_sigma1, held_add₄]
  rw [show (t + 16) * 4 + 256 = 256 + 4 * (t + 16) by omega, store_word (by omega)]
  rfl

end Schedules

section Rounds

variable {buf : Scratch} {t fuel : Nat} {v : Eight Word}

/-- The code of the first big sigma computes it. -/
theorem held_bigSigma0 (x : Word) :
    ((held x >>> 2 ||| held x <<< 30) &&& M) ^^^ ((held x >>> 13 ||| held x <<< 19) &&& M) ^^^
    ((held x >>> 22 ||| held x <<< 10) &&& M) = held (bigSigma0 x) := by
  rw [@held_rotateRight x 30 2 (by decide) (by decide),
    @held_rotateRight x 19 13 (by decide) (by decide),
    @held_rotateRight x 10 22 (by decide) (by decide), held_xor, held_xor]
  rfl

/-- The code of the second big sigma computes it. -/
theorem held_bigSigma1 (x : Word) :
    ((held x >>> 6 ||| held x <<< 26) &&& M) ^^^ ((held x >>> 11 ||| held x <<< 21) &&& M) ^^^
    ((held x >>> 25 ||| held x <<< 7) &&& M) = held (bigSigma1 x) := by
  rw [@held_rotateRight x 26 6 (by decide) (by decide),
    @held_rotateRight x 21 11 (by decide) (by decide),
    @held_rotateRight x 7 25 (by decide) (by decide), held_xor, held_xor]
  rfl

/-- The code of the choice computes it. -/
theorem held_ch (x y z : Word) : (held x &&& held y) ^^^ ((held x ^^^ M) &&& held z) =
    held (ch x y z) := by
  rw [held_not, held_and, held_and, held_xor]
  rfl

/-- The code of the majority computes it. -/
theorem held_maj (x y z : Word) : (held x &&& held y) ^^^ (held x &&& held z) ^^^
    (held y &&& held z) = held (maj x y z) := by
  rw [held_and, held_and, held_and, held_xor, held_xor]
  rfl

/-- Five words are added in the register. -/
theorem held_add₅ (x y z w u : Word) :
    (held x + held y + held z + held w + held u) &&& M = held (x + y + z + w + u) := by
  rw [and_M]
  simp only [BitVec.setWidth_add _ _ (show 32 ≤ 64 by decide), setWidth_held]

/-- A round on registers is a round on the words they hold. -/
theorem rbody_eq {k w : Word} (below : t < 64) (constant : wordIn buf.bytes (4 * t) = k)
    (scheduled : wordIn buf.bytes (256 + 4 * t) = w) :
    rbody buf (count t, v.map held) = some (count (t + 1), (round k w v).map held) := by
  obtain ⟨a, b, c, d, e, f, g, h⟩ := v
  have four : (4 : Register) = count 4 := rfl
  have one : (1 : Register) = count 1 := rfl
  have offset : (256 : Register) = count 256 := rfl
  have same : ∀ r : Register, r + 0 = r := fun r => by simp
  rw [show 4 * t = t * 4 by omega] at constant
  rw [show 256 + 4 * t = t * 4 + 256 by omega] at scheduled
  simp only [rbody, Eight.map, four, one, offset, count_mul, count_add, Option.bind_eq_bind,
    Option.bind_some,
    load_word (show t * 4 + 4 ≤ 66560 by omega),
      load_word (show t * 4 + 256 + 4 ≤ 66560 by omega), constant, scheduled,
    signExtend_and_M, held_bigSigma0, held_bigSigma1, held_ch, held_maj, held_add₅, held_add, same]
  rfl

end Rounds

section Chunks

variable {padded : List UInt8} {buf : Scratch} {i fuel : Nat}

/-- The constants and the padded message, where the loops find them. -/
structure Prepared (padded : List UInt8) (buf : Scratch) : Prop where
  constants : ∀ t < 64, wordIn buf.bytes (4 * t) = constants.getD t 0
  message : ∀ j < padded.length, buf.bytes (512 + j) = padded.getD j 0

/-- A buffer that keeps the rest stays prepared. -/
theorem Prepared.keeps {buf' : Scratch} (prepared : Prepared padded buf)
    (keeps : KeepsRest buf buf') : Prepared padded buf' where
  constants := fun t below =>
    (wordIn_congr fun k small => keeps _ (.inl (by omega))).trans (prepared.constants t below)
  message := fun j below => (keeps _ (.inr (by omega))).trans (prepared.message j below)

/-- A prepared buffer holds every block of the message. -/
theorem Prepared.holdsBlock (prepared : Prepared padded buf)
    (inside : 64 * i + 64 ≤ padded.length) :
    HoldsBlock padded (64 * i) buf := fun j below => by
  rw [Nat.add_assoc]
  exact prepared.message _ (by omega)

/-- A block has sixteen words. -/
theorem length_block : (block padded i).length = 16 := by simp [block]

/-- The schedule of a block. -/
abbrev wordsOf (padded : List UInt8) (i : Nat) : List Word := schedule (block padded i) 48

/-- The first words of the schedule are those of the block. -/
theorem wordsOf_getD {t : Nat} (below : t < 16) :
    (wordsOf padded i).getD t 0 = wordAt padded (64 * i + 4 * t) := by
  rw [wordsOf, schedule_getD_words (by rw [length_block]; exact below), block]
  simp [List.getD_eq_getElem?_getD, below]

/-- What the loops over the schedule keep. -/
structure Filled (padded : List UInt8) (i : Nat) (buf : Scratch) (t : Nat)
    (s : Register × Scratch) : Prop where
  counter : s.1 = count t
  keeps : KeepsRest buf s.2
  scheduled : Scheduled (wordsOf padded i) t s.2

/-- The loading loop schedules the block. -/
theorem wload_eq (prepared : Prepared padded buf) (inside : 64 * i + 64 ≤ padded.length)
    (small : padded.length ≤ 66048)
    (enough : 64 < fuel) : ∃ buf', wload fuel (count (64 * i + 512)) buf = some buf' ∧
      Filled padded i buf 16 (count 16, buf') := by
  have start : Filled padded i buf 0 (0, buf) :=
    ⟨rfl, fun _ _ => rfl, fun _ below => absurd below (Nat.not_lt_zero _)⟩
  have step : ∀ t < 16, ∀ s, Filled padded i buf t s →
      ∃ s', wlbody (count (64 * i + 512)) s = some s' ∧ Filled padded i buf (t + 1) s' := by
    rintro t below ⟨_, b⟩ ⟨rfl, keeps, scheduled⟩
    exact ⟨_, wlbody_eq ((prepared.keeps keeps).holdsBlock inside) below (by omega), rfl,
      keeps.store (by omega),
      scheduled.store (wordsOf_getD below).symm⟩
  obtain ⟨⟨_, b⟩, run, rfl, keeps, scheduled⟩ :=
    rounds_counts (fun _ _ filled => filled.counter) (by decide) step start
    (Nat.zero_le 16) (show 16 - 0 < fuel by omega)
  refine ⟨b, ?_, rfl, keeps, scheduled⟩
  rw [wload, show (16 : Register) = count 16 from rfl, run]
  rfl

/-- The extending loop completes the schedule. -/
theorem wext_eq {buf' : Scratch} (filled : Filled padded i buf 16 (count 16, buf'))
    (enough : 64 < fuel) :
    ∃ buf'', wext fuel buf' = some buf'' ∧ Filled padded i buf 64 (count 64, buf'') := by
  have step : ∀ t < 64, ∀ s, 16 ≤ t ∧ Filled padded i buf t s →
      ∃ s', webody s = some s' ∧ 16 ≤ t + 1 ∧ Filled padded i buf (t + 1) s' := by
    rintro t below ⟨_, b⟩ ⟨from_, rfl, keeps, scheduled⟩
    obtain ⟨k, rfl⟩ := Nat.exists_eq_add_of_le' from_
    refine ⟨_, webody_eq scheduled below, by omega, rfl, keeps.store (by omega), scheduled.store ?_⟩
    rw [schedule_step length_block (by omega)]
    ring
  obtain ⟨⟨_, b⟩, run, -, rfl, keeps, scheduled⟩ :=
    rounds_counts (fun _ _ filled => filled.2.counter) (by decide) step
    ⟨Nat.le_refl 16, filled⟩ (show 16 ≤ 64 by decide) (show 64 - 16 < fuel by omega)
  refine ⟨b, ?_, rfl, keeps, scheduled⟩
  rw [wext, show (64 : Register) = count 64 from rfl, show (16 : Register) = count 16 from rfl, run]
  rfl

/-- The rounds over one block. -/
theorem rnd_eq {v : Eight Word} (prepared : Prepared padded buf)
    (scheduled : Scheduled (wordsOf padded i) 64 buf)
    (enough : 64 < fuel) : rnd fuel buf (v.map held) =
      some ((roundsOf (wordsOf padded i) v 64).map held) := by
  have step : ∀ t < 64, ∀ s, s = (count t, (roundsOf (wordsOf padded i) v t).map held) →
      ∃ s', rbody buf s = some s' ∧ s' = (count (t + 1),
        (roundsOf (wordsOf padded i) v (t + 1)).map held) := by
    rintro t below _ rfl
    exact ⟨_, rbody_eq below (prepared.constants t below) (scheduled t below), rfl⟩
  obtain ⟨s, run, rfl⟩ := @rounds_counts _ Prod.fst _ _ _ fuel _ _
    (fun t s now => congrArg Prod.fst now) (by decide) step
    rfl (Nat.zero_le 64) (show 64 - 0 < fuel by omega)
  rw [rnd, show (64 : Register) = count 64 from rfl]
  exact congrArg (· >>= fun s => pure s.2) run

/-- One block takes the hash before it to the hash after it. -/
theorem chunkbody_eq (prepared : Prepared padded buf) (inside : 64 * i + 64 ≤ padded.length)
    (small : padded.length ≤ 66048)
    (enough : 64 < fuel) : ∃ buf', chunkbody fuel
      ⟨count (64 * i), (hashAfter padded i).map held, buf⟩ =
      some ⟨count (64 * (i + 1)), (hashAfter padded (i + 1)).map held, buf'⟩ ∧
        Prepared padded buf' := by
  obtain ⟨buf', loaded, filled⟩ := wload_eq prepared inside small enough
  obtain ⟨buf'', extended, filled'⟩ := wext_eq filled enough
  have prepared' := prepared.keeps filled'.keeps
  have offset : (512 : Register) = count 512 := rfl
  have next : (64 : Register) = count 64 := rfl
  have same : ∀ v : Eight Register, v.map (· + 0) = v := fun v => by simp [Eight.map]
  refine ⟨buf'', ?_, prepared'⟩
  simp only [chunkbody, offset, next, count_add, loaded, extended, same, Option.bind_eq_bind,
    Option.bind_some,
    rnd_eq prepared' filled'.scheduled enough]
  rw [show 64 * i + 64 = 64 * (i + 1) by omega]
  simp only [hashAfter, compress, Eight.zipWith, Eight.map, held_add]
  rfl

/-- What holds in front of block `i`. -/
structure Hashed (padded : List UInt8) (i : Nat) (s : Chunk) : Prop where
  counter : s.ci = count (64 * i)
  hash : s.hash = (hashAfter padded i).map held
  prepared : Prepared padded s.buf

/-- The loop over the chunks compresses every block. -/
theorem chunkloop_eq {n : Nat} (prepared : Prepared padded buf)
    (length : padded.length = 64 * n) (small : padded.length ≤ 66048)
    (enough : 1100 < fuel) : chunkloop fuel (count padded.length) (initial.map held) buf =
      some ((hashAfter padded n).map held) := by
  have bound : count padded.length = count (64 * n) := by rw [length]
  have stop : ∀ s, Hashed padded n s → ige s.ci (count padded.length) = true := fun s hashed => by
    rw [hashed.counter, bound, ige_counts (by omega) (by omega), decide_eq_true (Nat.le_refl _)]
  have step : ∀ i < n, ∀ s, Hashed padded i s → ige s.ci (count padded.length) = false ∧
      ∃ s', chunkbody fuel s = some s' ∧ Hashed padded (i + 1) s' := by
    rintro i below ⟨_, _, b⟩ ⟨rfl, rfl, prepared⟩
    obtain ⟨buf', stepped, prepared'⟩ :=
      chunkbody_eq prepared (show 64 * i + 64 ≤ padded.length by omega) small
        (show 64 < fuel by omega)
    refine ⟨?_, _, stepped, rfl, rfl, prepared'⟩
    rw [bound, ige_counts (by omega) (by omega), decide_eq_false (by omega)]
  have start : Hashed padded 0 ⟨0, initial.map held, buf⟩ := ⟨rfl, rfl, prepared⟩
  obtain ⟨⟨_, hash, b⟩, run, -, done, -⟩ :=
    rounds_counted stop step start (Nat.zero_le n) (show n - 0 < fuel by omega)
  rw [chunkloop, run]
  exact congrArg some done

end Chunks

section Writing

variable {b : Buffer} {off i k size : Nat} {l : List UInt8} {x : UInt8} {r : Register}
  {a : Allocation size}

/-- Bytes written one after the other. -/
def writeBytes (b : Buffer) (off : Nat) : List UInt8 → Buffer
  | [] => b
  | x :: l => writeBytes (Function.update b off x) (off + 1) l

/-- Bytes written leave the bytes beside them. -/
theorem writeBytes_of_outside (outside : i < off ∨ off + l.length ≤ i) :
    writeBytes b off l i = b i := by
  induction l generalizing b off with
  | nil => rfl
  | cons x l ih =>
      rw [List.length_cons] at outside
      rw [writeBytes, ih (by omega), Function.update_of_ne (by omega)]

/-- The bytes written are there. -/
theorem writeBytes_at (below : k < l.length) : writeBytes b off l (off + k) = l.getD k 0 := by
  induction l generalizing b off k with
  | nil => exact absurd below (Nat.not_lt_zero k)
  | cons x l ih =>
      cases k with
      | zero =>
          exact (writeBytes_of_outside (.inl (Nat.lt_succ_self off))).trans
            (Function.update_self ..)
      | succ k =>
          rw [writeBytes, show off + (k + 1) =
            off + 1 + k by omega, ih (Nat.lt_of_succ_lt_succ below)]
          rfl

/-- Bytes are written one after the other. -/
theorem writeBytes_append {l' : List UInt8} :
    writeBytes b off (l ++ l') = writeBytes (writeBytes b off l) (off + l.length) l' := by
  induction l generalizing b off with
  | nil => rfl
  | cons x l ih =>
      rw [List.cons_append, writeBytes, ih, writeBytes, List.length_cons]
      congr 1
      omega

/-- What was written is read back. -/
theorem bytes_writeBytes : (writeBytes b off l).bytes off l.length = l := by
  refine List.ext_getElem (by simp) fun j below below' => ?_
  rw [Buffer.getElem_bytes, writeBytes_at below', List.getD_eq_getElem _ _ below']

/-- A byte of a register. -/
theorem ofNat_shiftRight (r : Register) (s : Nat) :
    UInt8.ofNat (r >>> s &&& 255).toNat = UInt8.ofNat (r.toNat / 2 ^ s) := by
  have mask : (255 : Register).toNat = 2 ^ 8 - 1 := rfl
  rw [← UInt8.toNat_inj, UInt8.toNat_ofNat', UInt8.toNat_ofNat', BitVec.toNat_and, mask,
    Nat.and_two_pow_sub_one_eq_mod, BitVec.toNat_ushiftRight, Nat.shiftRight_eq_div_pow,
      Nat.mod_mod]

/-- The eight bytes of a register, the highest first. -/
theorem bigEndian_eight (r : Register) : bigEndian 8 r.toNat =
    [UInt8.ofNat (r >>> 56 &&& 255).toNat, UInt8.ofNat (r >>> 48 &&& 255).toNat,
      UInt8.ofNat (r >>> 40 &&& 255).toNat,
      UInt8.ofNat (r >>> 32 &&& 255).toNat, UInt8.ofNat (r >>> 24 &&& 255).toNat,
        UInt8.ofNat (r >>> 16 &&& 255).toNat,
      UInt8.ofNat (r >>> 8 &&& 255).toNat, UInt8.ofNat (r &&& 255).toNat] := by
  have last := ofNat_shiftRight r 0
  rw [BitVec.ushiftRight_zero] at last
  simp only [ofNat_shiftRight, last]
  rfl

/-- The four bytes of a word, the highest first. -/
theorem bigEndian_four (w : Word) : bigEndian 4 w.toNat =
    [UInt8.ofNat (held w >>> 24 &&& 255).toNat, UInt8.ofNat (held w >>> 16 &&& 255).toNat,
      UInt8.ofNat (held w >>> 8 &&& 255).toNat, UInt8.ofNat (held w &&& 255).toNat] := by
  have last := ofNat_shiftRight (held w) 0
  rw [BitVec.ushiftRight_zero] at last
  simp only [ofNat_shiftRight, last, toNat_held]
  rfl

/-- A word is stored with its highest byte first. -/
theorem storeWord_eq {digest : Allocation 32} {w : Word} (inside : off + 4 ≤ 32) :
    storeWord (held w) (count off) digest =
      some ⟨writeBytes digest.bytes off (bigEndian 4 w.toNat)⟩ := by
  have one : (1 : Register) = count 1 := rfl
  have two : (2 : Register) = count 2 := rfl
  have three : (3 : Register) = count 3 := rfl
  simp only [storeWord, one, two, three, count_add, Option.bind_eq_bind, Option.bind_some,
    store_char (show off < 32 by omega) (by omega),
      store_char (show off + 1 < 32 by omega) (by omega),
    store_char (show off + 2 < 32 by omega) (by omega),
      store_char (show off + 3 < 32 by omega) (by omega), bigEndian_four]
  rfl

/-- The words of the digest are stored one behind the other. -/
theorem storeHash_eq {digest : Allocation 32} {words : List Word}
    (inside : off + 4 * words.length ≤ 32) :
    storeHash (words.map held) (count off) digest =
      some ⟨writeBytes digest.bytes off (words.flatMap fun w => bigEndian 4 w.toNat)⟩ := by
  induction words generalizing off digest with
  | nil => rfl
  | cons w words ih =>
      rw [List.length_cons] at inside
      have four : (4 : Register) = count 4 := rfl
      rw [List.map_cons, storeHash, storeWord_eq (by omega), four, count_add,
        Option.bind_eq_bind, Option.bind_some,
        ih (by omega), List.flatMap_cons, writeBytes_append, length_bigEndian]

end Writing

section Padding

variable {data : Allocation 65536} {buf : Scratch} {n plen fuel : Nat}

/-- The length of the padded message, as the behavior takes it. -/
def paddedLength (n : Nat) : Nat := ((n + 8) / 64 + 1) * 64

/-- A padded message has its padded length. -/
theorem length_pad_eq (message : List UInt8) :
    (pad message).length = paddedLength message.length := by
  rw [length_pad, zeros, paddedLength]
  omega

/-- Words stored one after the other. -/
theorem storeConstants_eq {words : List Word} {off : Nat}
    (inside : off + 4 * words.length ≤ 66560) :
    ∃ buf', storeConstants (words.map held) (count off) buf = some buf' ∧
      ∀ t < words.length, wordIn buf'.bytes (off + 4 * t) = words.getD t 0 := by
  have stronger : ∃ buf', storeConstants (words.map held) (count off) buf = some buf' ∧
      (∀ i < off, buf'.bytes i = buf.bytes i) ∧
      ∀ t < words.length, wordIn buf'.bytes (off + 4 * t) = words.getD t 0 := by
    induction words generalizing off buf with
    | nil => exact ⟨buf, rfl, fun _ _ => rfl, fun t below => absurd below (Nat.not_lt_zero t)⟩
    | cons w words ih =>
        rw [List.length_cons] at inside
        have four : (4 : Register) = count 4 := rfl
        obtain ⟨buf', stored, before, all⟩ :=
          @ih ⟨buf.bytes.store off w.toNat 4⟩ (off + 4) (by omega)
        refine ⟨buf', ?_, fun i below => ?_, fun t below => ?_⟩
        · rw [List.map_cons, storeConstants, store_word (by omega), four, count_add,
            Option.bind_eq_bind, Option.bind_some, stored]
        · rw [before i (by omega)]
          exact Buffer.store_of_outside (.inl below)
        · cases t with
          | zero =>
              rw [Nat.mul_zero, Nat.add_zero, wordIn_congr fun k small =>
                before (off + k) (by omega)]
              exact wordIn_store
          | succ t =>
              rw [show off + 4 * (t + 1) = off + 4 + 4 * t by omega, all t (by simpa using below)]
              rfl
  obtain ⟨buf', stored, -, all⟩ := stronger
  exact ⟨buf', stored, all⟩

/-- The byte written is there. -/
theorem written {mem : Nat → UInt8} {byte : UInt8} {i j : Nat} (same : j = i) :
    Function.update mem i byte j = byte := by
  rw [same, Function.update_self]

/-- What the zero loop has done after `z` rounds. -/
structure Zeroed (buf : Scratch) (z : Nat) (s : Register × Scratch) : Prop where
  counter : s.1 = count z
  zero : ∀ j < z, s.2.bytes (512 + j) = 0
  before : ∀ i < 512, s.2.bytes i = buf.bytes i

/-- The zeroing loop clears the padded length. -/
theorem zloop_eq (room : plen ≤ 66048) (enough : plen < fuel) :
    ∃ buf', zloop fuel (count plen) buf = some buf' ∧ Zeroed buf plen (count plen, buf') := by
  have step : ∀ z < plen, ∀ s, Zeroed buf z s → ∃ s', zbody s = some s' ∧
    Zeroed buf (z + 1) s' := by
    rintro z below ⟨_, b⟩ ⟨rfl, zero, before⟩
    have offset : (512 : Register) = count 512 := rfl
    have one : (1 : Register) = count 1 := rfl
    refine ⟨(count (z + 1), ⟨Function.update b.bytes (z + 512) 0⟩), ?_, rfl, fun j inside =>
      ?_, fun i inside => ?_⟩
    · simp only [zbody, offset, one, count_add,
        store_char (show z + 512 < 66560 by omega) (by omega), Option.bind_eq_bind,
        Option.bind_some]
      rfl
    · by_cases last : j = z
      · exact written (by omega)
      · exact (Function.update_of_ne (by omega) _ _).trans (zero j (by omega))
    · exact (Function.update_of_ne (by omega) _ _).trans (before i inside)
  obtain ⟨⟨_, b⟩, run, rfl, zero, before⟩ :=
    rounds_counts (fun _ _ zeroed => zeroed.counter) (by omega) step
    (show Zeroed buf 0 (0, buf) from ⟨rfl, fun j below => absurd below (Nat.not_lt_zero j),
      fun _ _ => rfl⟩)
    (Nat.zero_le plen) (show plen - 0 < fuel by omega)
  refine ⟨b, ?_, rfl, zero, before⟩
  rw [zloop, run]
  rfl

/-- What the copy loop has done after `j` rounds. -/
structure MessageCopied (data : Allocation 65536) (buf : Scratch) (j : Nat)
    (s : Register × Scratch) : Prop where
  counter : s.1 = count j
  copied : s.2.bytes = Buffer.copy data.bytes 0 buf.bytes 512 j

/-- The copying loop copies the message behind the schedule. -/
theorem cploop_eq (le : n ≤ 65536) (enough : n < fuel) : cploop fuel data (count n) buf =
    some ⟨Buffer.copy data.bytes 0 buf.bytes 512 n⟩ := by
  have step : ∀ j < n, ∀ s, MessageCopied data buf j s →
      ∃ s', cpbody data s = some s' ∧ MessageCopied data buf (j + 1) s' := by
    rintro j below ⟨_, b⟩ ⟨rfl, copied⟩
    have offset : (512 : Register) = count 512 := rfl
    have one : (1 : Register) = count 1 := rfl
    refine ⟨(count (j + 1), ⟨Function.update b.bytes (j + 512) (data.bytes j)⟩), ?_, rfl, ?_⟩
    · simp only [cpbody, offset, one, count_add, load_char (show j < 65536 by omega) (by omega),
        store_char (show j + 512 < 66560 by omega) (by omega), charReg_and_255, ofNat_byteReg,
          Option.bind_eq_bind,
        Option.bind_some]
      rfl
    · rw [Buffer.copy, ← copied, Nat.zero_add, Nat.add_comm 512]
  obtain ⟨⟨_, b⟩, run, rfl, copied⟩ :=
    rounds_counts (fun _ _ copied => copied.counter) (by omega) step
    (show MessageCopied data buf 0 (0, buf) from ⟨rfl, rfl⟩) (Nat.zero_le n)
      (show n - 0 < fuel by omega)
  rw [cploop, run, ← copied]
  rfl

/-- The length is stored at the end of the padding. -/
theorem storeLength_eq (le : n ≤ 65536) (plen_ : plen ≤ 66048) (room : 8 ≤ plen) :
    storeLength (count n) (count plen) buf =
      some ⟨writeBytes buf.bytes (512 + (plen - 8)) (bigEndian 8 (8 * n))⟩ := by
  have eight : (8 : Register) = count 8 := rfl
  have offset : (512 : Register) = count 512 := rfl
  have length : (count (n * 8)).toNat = 8 * n := by rw [toNat_count (by omega), Nat.mul_comm]
  have start : count (plen + 512) - count 8 = count (512 + (plen - 8)) := by
    rw [count_sub (by omega)]
    congr 1
    omega
  have bytes := bigEndian_eight (count (n * 8))
  rw [length] at bytes
  simp only [storeLength, eight, offset, count_mul, count_add, start, Option.bind_eq_bind, bytes]
  rw [store_char (show 512 + (plen - 8) < 66560 by omega) (by omega), Option.bind_some]
  simp only [show (1 : Register) = count 1 from rfl, show (2 : Register) = count 2 from rfl,
    show (3 : Register) = count 3 from rfl, show (4 : Register) = count 4 from rfl,
      show (5 : Register) = count 5 from rfl,
    show (6 : Register) = count 6 from rfl, show (7 : Register) = count 7 from rfl, count_add,
      Option.bind_some,
    store_char (show 512 + (plen - 8) + 1 < 66560 by omega) (by omega),
    store_char (show 512 + (plen - 8) + 2 < 66560 by omega) (by omega),
    store_char (show 512 + (plen - 8) + 3 < 66560 by omega) (by omega),
    store_char (show 512 + (plen - 8) + 4 < 66560 by omega) (by omega),
    store_char (show 512 + (plen - 8) + 5 < 66560 by omega) (by omega),
    store_char (show 512 + (plen - 8) + 6 < 66560 by omega) (by omega),
    store_char (show 512 + (plen - 8) + 7 < 66560 by omega) (by omega)]
  rfl

/-- A padded message is the message, the bit, zeros, and the length. -/
theorem pad_getD {message : List UInt8} {j : Nat} : (pad message).getD j 0 =
    if j < message.length then message.getD j 0
    else if j = message.length then 0x80
    else if j < (pad message).length - 8 then 0
    else (bigEndian 8 (8 * message.length)).getD (j - ((pad message).length - 8)) 0 := by
  have length := @length_pad message
  rw [length, Nat.add_sub_cancel, pad]
  split_ifs with early one zero
  · rw [List.getD_append _ _ _ _ early]
  · rw [List.getD_append_right _ _ _ _ (by omega), one, Nat.sub_self, List.getD_cons_zero]
  · obtain ⟨k, rfl⟩ := Nat.exists_eq_add_of_lt (show message.length < j by omega)
    rw [List.getD_append_right _ _ _ _ (by omega),
      show message.length + k + 1 - message.length = k + 1 by omega,
      List.getD_cons_succ, List.getD_append _ _ _ _ (by simp; omega)]
    rw [List.getD_eq_getElem _ _ (by simp; omega), List.getElem_replicate]
  · obtain ⟨k, rfl⟩ := Nat.exists_eq_add_of_le
      (show message.length + 1 + zeros message.length ≤ j by omega)
    rw [List.getD_append_right _ _ _ _ (by omega),
      show message.length + 1 + zeros message.length + k - message.length =
        zeros message.length + k + 1 by omega,
      List.getD_cons_succ, List.getD_append_right _ _ _ _ (by simp)]
    simp

/-- The constants of the code are those of the standard. -/
theorem kConstants_eq : kConstants = constants.map held := rfl

/-- The buffer in front of the blocks holds the constants and the padded message. -/
theorem Zeroed.prepared {b₁ b₂ : Scratch}
    (zeroed : Zeroed b₁ (paddedLength n) (count (paddedLength n), b₂))
    (stored : ∀ t < 64, wordIn b₁.bytes (4 * t) = constants.getD t 0) :
      Prepared (pad (data.bytes.bytes 0 n))
      ⟨writeBytes (Function.update (Buffer.copy data.bytes 0 b₂.bytes 512 n) (n + 512) 0x80)
        (512 + (paddedLength n - 8)) (bigEndian 8 (8 * n))⟩ where
  constants := fun t below => by
    rw [← stored t below]
    refine wordIn_congr fun k small => (writeBytes_of_outside (.inl (by omega))).trans ?_
    rw [Function.update_of_ne (by omega), Buffer.copy_of_outside (.inl (by omega))]
    exact zeroed.before _ (by omega)
  message := fun j below => by
    have room : n + 9 ≤ paddedLength n := by rw [paddedLength]; omega
    rw [length_pad_eq, Buffer.length_bytes] at below
    rw [pad_getD, Buffer.length_bytes, length_pad_eq, Buffer.length_bytes]
    dsimp only
    split_ifs with early one zero
    · rw [writeBytes_of_outside (.inl (by omega)), Function.update_of_ne (by omega),
        Buffer.copy_at early,
        List.getD_eq_getElem _ _ (by simpa using early), Buffer.getElem_bytes]
    · rw [writeBytes_of_outside (.inl (by omega)), written (by omega)]
    · rw [writeBytes_of_outside (.inl (by omega)), Function.update_of_ne (by omega),
        Buffer.copy_of_outside (.inr (by omega))]
      exact zeroed.zero j below
    · obtain ⟨k, rfl⟩ := Nat.exists_eq_add_of_le (Nat.le_of_not_lt zero)
      rw [← Nat.add_assoc, writeBytes_at (by simp; omega), Nat.add_sub_cancel_left]

end Padding

section Digests

variable {n fuel : Nat} {data : Allocation 65536} {len : Allocation 8} {buf : Scratch}
  {digest : Allocation 32}

/-- The words of the hash, stored one after the other, are the digest. -/
theorem storeHash_digest {message : List UInt8} {k : Nat} (length : (pad message).length = 64 * k) :
    ∃ digest', storeHash ((hashAfter (pad message) k).map held).toList 0 digest = some digest' ∧
      digest'.bytes.bytes 0 32 = Flow.Sha256.digest message := by
  have blocks : (pad message).length / 64 = k := by omega
  have digested : (hashAfter (pad message) k).toList.flatMap (fun word => bigEndian 4 word.toNat) =
      Flow.Sha256.digest message := by
    rw [Flow.Sha256.digest, blocks]
  have stored := @storeHash_eq 0 digest (hashAfter (pad message) k).toList (by simp [Eight.toList])
  have all := @bytes_writeBytes digest.bytes 0 (Flow.Sha256.digest message)
  rw [length_digest] at all
  rw [digested] at stored
  exact ⟨_, stored, all⟩

/-- What follows a value is run on it. -/
theorem bind_of {α β : Type} {x : Option α} {a : α} {f : α → Option β} (is_ : x = some a) :
    x >>= f = f a := by
  rw [is_, Option.bind_eq_bind, Option.bind_some]

/-- The steps of `sha256`, one after the other. -/
theorem sha256_steps {lenv plen : Register} {b₁ b₂ b₃ b₄ b₅ : Scratch} {hash : Eight Register}
    (read : len.load 8 0 = some lenv)
    (constants : storeConstants kConstants 0 buf = some b₁)
      (blocks : ((lenv + 8).sdiv 64 + 1) * 64 = plen)
    (zeros : zloop fuel plen b₁ = some b₂) (copied : cploop fuel data lenv b₂ = some b₃)
    (one : b₃.store 128 1 (lenv + 512) = some b₄) (ended : storeLength lenv plen b₄ = some b₅)
    (hashed : chunkloop fuel plen (initial.map held) b₅ = some hash) :
    sha256 fuel data len buf digest = storeHash hash.toList 0 digest := by
  subst blocks
  refine (bind_of read).trans ?_
  refine (bind_of constants).trans ?_
  refine (bind_of zeros).trans ?_
  refine (bind_of copied).trans ?_
  refine (bind_of one).trans ?_
  refine (bind_of ended).trans ?_
  exact bind_of hashed

/-- `sha256` writes the digest of the bytes it is given, and loads and stores inside of its
buffers. -/
theorem sha256_eq (counted : len.bytes.load 0 8 = n) (le : n ≤ 65536) (enough : 70000 ≤ fuel) :
    ∃ digest', sha256 fuel data len buf digest = some digest' ∧
      digest'.bytes.bytes 0 32 = Flow.Sha256.digest (data.bytes.bytes 0 n) := by
  have lenv : intIn len = count n := by rw [intIn, counted]
  have length : (pad (data.bytes.bytes 0 n)).length = paddedLength n := by
    rw [length_pad_eq, Buffer.length_bytes]
  have bound : paddedLength n ≤ 66048 := by rw [paddedLength]; omega
  have blocks : (count n + 8).sdiv 64 = count ((n + 8) / 64) := by
    rw [show (8 : Register) = count 8 from rfl, show (64 : Register) = count 64 from rfl, count_add,
      count_sdiv (by omega) (by decide)]
  have plen : (count ((n + 8) / 64) + 1) * 64 = count (paddedLength n) := by
    rw [count_succ, show (64 : Register) = count 64 from rfl, count_mul, paddedLength]
  have eoff : count n + 512 = count (n + 512) := count_add
  have whole : (pad (data.bytes.bytes 0 n)).length = 64 * ((n + 8) / 64 + 1) := by
    rw [length, paddedLength, Nat.mul_comm]
  obtain ⟨b₁, constants, stored⟩ := @storeConstants_eq buf Flow.Sha256.constants 0 (by simp)
  obtain ⟨b₂, zeros, zeroed⟩ := @zloop_eq b₁ (paddedLength n) fuel bound (by omega)
  have prepared := @Zeroed.prepared data n b₁ b₂ zeroed fun t below => by simpa using stored t below
  have copied := @cploop_eq data b₂ n fuel le (by omega)
  have one : Allocation.store (⟨Buffer.copy data.bytes 0 b₂.bytes 512 n⟩ : Scratch) 128 1
    (count (n + 512)) =
      some ⟨Function.update (Buffer.copy data.bytes 0 b₂.bytes 512 n) (n + 512) 0x80⟩ :=
        store_char (by omega) (by omega)
  have ended :=
    @storeLength_eq ⟨Function.update (Buffer.copy data.bytes 0 b₂.bytes 512 n) (n + 512) 0x80⟩ n
      (paddedLength n)
    le bound (by rw [paddedLength]; omega)
  have hashed := chunkloop_eq prepared whole (length ▸ bound) (show 1100 < fuel by omega)
  obtain ⟨digest', written, digested⟩ := @storeHash_digest digest _ _ whole
  rw [length] at hashed
  rw [← kConstants_eq, count_zero] at constants
  refine ⟨digest', (sha256_steps ?_ constants ?_ zeros copied ?_ ended hashed).trans written,
    digested⟩
  · rw [load_intIn, lenv]
  · rw [blocks, plen]
  · rw [eoff, one]

/-- The digest of three bytes. -/
theorem sha256_eq_abc : ∃ digest', sha256 70000 ⟨fun i => UInt8.ofNat (97 + i)⟩ (intOf 3)
    ⟨fun _ => 0⟩ ⟨fun _ => 0⟩ = some digest' ∧
    digest'.bytes.bytes 0 32 = Flow.Sha256.digest
      (Buffer.bytes (fun i => UInt8.ofNat (97 + i)) 0 3) :=
  sha256_eq (load_intOf (by decide)) (by decide) (by decide)

end Digests

end Sigil.Stdlib
