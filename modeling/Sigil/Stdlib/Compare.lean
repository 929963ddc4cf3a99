import Sigil.Stdlib.Scan

/-!
# Comparing texts

`compare` goes up to the first null of both texts, `mem-compare` up to a length. Only the second
masks the bytes before it compares them.
-/

namespace Sigil.Stdlib

open Flow

def compareBody (first second : Allocation 65536) (i : Register) :
    Option (Register ⊕ Register) := do
  if ige i 65536 then return .inr 0
  let byte1 ← first.load 1 i
  let byte2 ← second.load 1 i
  if byte1 = 0 ∧ byte2 = 0 then return .inr 0
  if byte1 = 0 then return .inr (-1)
  if byte2 = 0 then return .inr 1
  if ilt byte1 byte2 then return .inr (-1)
  if ilt byte2 byte1 then return .inr 1
  return .inl (i + 1)

/-- The behavior `compare`. -/
def compare (fuel : Nat) (first second : Allocation 65536) (result : Allocation 8) :
    Option (Allocation 8) := do
  let order ← exits (compareBody first second) fuel 0
  result.store order 8 0

def memCompareBody (a b : Allocation 65536) (lenv i : Register) : Option (Register ⊕ Register) := do
  if ige i lenv then return .inr 0
  let ab ← a.load 1 i
  let au := ab &&& 255
  let bb ← b.load 1 i
  let bu := bb &&& 255
  if ilt au bu then return .inr (-1)
  if ilt bu au then return .inr 1
  return .inl (i + 1)

/-- The behavior `mem-compare`. -/
def memCompare (fuel : Nat) (a b : Allocation 65536) (len result : Allocation 8) :
    Option (Allocation 8) := do
  let lenv ← len.load 8 0
  let order ← exits (memCompareBody a b lenv) fuel 0
  result.store order 8 0

section Orders

/-- The lexicographic order of two lists as a register. -/
def orderOf (xs ys : List UInt8) : Register := if xs < ys then -1 else if ys < xs then 1 else 0

/-- The order that a loop finds in two lists, with the bytes as the registers it compares. -/
def orderBy (reg : UInt8 → Register) : List UInt8 → List UInt8 → Register
  | [], [] => 0
  | [], _ :: _ => -1
  | _ :: _, [] => 1
  | x :: xs, y :: ys =>
      if ilt (reg x) (reg y) then -1 else if ilt (reg y) (reg x) then 1 else orderBy reg xs ys

/-- The bytes behind a common prefix of two lists are on one side of 128. -/
def SameSigns (xs ys : List UInt8) : Prop :=
  ∀ p x y s t, xs = p ++ x :: s → ys = p ++ y :: t → (x < 128 ↔ y < 128)

variable {xs ys : List UInt8} {x y : UInt8}

/-- The same byte in front does not decide. -/
theorem orderOf_cons_same : orderOf (x :: xs) (x :: ys) = orderOf xs ys := by simp [orderOf]

/-- A smaller byte in front decides. -/
theorem orderOf_cons_less (less : x < y) : orderOf (x :: xs) (y :: ys) = -1 := by
  rw [orderOf, if_pos (List.cons_lt_cons_iff.mpr (.inl less))]

/-- A greater byte in front decides. -/
theorem orderOf_cons_greater (greater : y < x) : orderOf (x :: xs) (y :: ys) = 1 := by
  have not_less : ¬ x :: xs < y :: ys := by
    rw [List.cons_lt_cons_iff]
    rintro (less | ⟨rfl, -⟩)
    · exact UInt8.lt_irrefl x (UInt8.lt_trans less greater)
    · exact UInt8.lt_irrefl x greater
  rw [orderOf, if_neg not_less, if_pos (List.cons_lt_cons_iff.mpr (.inl greater))]

/-- A char register holds the byte with its sign. -/
theorem toInt_charReg {b : UInt8} :
    (charReg b).toInt = if b.toNat < 128 then (b.toNat : Int) else b.toNat - 256 := by
  have below : b.toBitVec.toNat = b.toNat := rfl
  rw [charReg, BitVec.toInt_signExtend_of_le (by decide), BitVec.toInt_eq_toNat_cond, below]
  split_ifs <;> omega

/-- Bytes on one side of 128 keep their order with their signs, others change it. -/
theorem ilt_charReg (less : x < y) : ilt (charReg x) (charReg y) = decide (x < 128 ↔ y < 128) ∧
    ilt (charReg y) (charReg x) = decide (¬ (x < 128 ↔ y < 128)) := by
  have below := x.toNat_lt
  have below' := y.toNat_lt
  have middle : (128 : UInt8).toNat = 128 := rfl
  rw [UInt8.lt_iff_toNat_lt] at less
  simp only [ilt, BitVec.slt_eq_decide, toInt_charReg, UInt8.lt_iff_toNat_lt, middle,
    decide_eq_decide]
  split_ifs <;> omega

/-- No register is less than itself. -/
theorem ilt_self {r : Register} : ilt r r = false := by simp [ilt, BitVec.slt_eq_decide]

/-- Unsigned bytes are compared in order. -/
theorem ilt_byteReg : ilt (byteReg x) (byteReg y) = decide (x < y) := by
  have small : (byteReg x).toNat < 256 := toNat_byteReg ▸ x.toNat_lt
  have small' : (byteReg y).toNat < 256 := toNat_byteReg ▸ y.toNat_lt
  rw [ilt, BitVec.slt_eq_decide, BitVec.toInt_eq_toNat_of_lt (by omega),
    BitVec.toInt_eq_toNat_of_lt (by omega)]
  simp [UInt8.lt_iff_toNat_lt]

/-- Bytes are in order, the same or in reverse order. -/
theorem trichotomy (x y : UInt8) : x < y ∨ x = y ∨ y < x := by
  rw [UInt8.lt_iff_toNat_lt, UInt8.lt_iff_toNat_lt, ← UInt8.toNat_inj]
  exact Nat.lt_trichotomy _ _

/-- Masked bytes are in the unsigned order. -/
theorem orderBy_byteReg : orderBy byteReg xs ys = orderOf xs ys := by
  induction xs generalizing ys with
  | nil => cases ys <;> simp [orderBy, orderOf]
  | cons x xs ih =>
      obtain _ | ⟨y, ys⟩ := ys
      · simp [orderBy, orderOf]
      rw [orderBy, ilt_byteReg, ilt_byteReg, ih]
      obtain less | rfl | greater := trichotomy x y
      · rw [if_pos (decide_eq_true less), orderOf_cons_less less]
      · simp [orderOf_cons_same]
      · rw [orderOf_cons_greater greater, decide_eq_false (UInt8.lt_asymm greater),
          if_neg Bool.false_ne_true,
          if_pos (decide_eq_true greater)]

/-- Against the empty text all signs agree. -/
theorem sameSigns_nil : SameSigns [] ys := fun p _ _ _ _ first => by cases p <;> cases first

/-- Against the empty text all signs agree. -/
theorem sameSigns_nil' : SameSigns xs [] := fun p _ _ _ _ _ second => by cases p <;> cases second

/-- Signs agree when those of the first bytes do and, behind equal ones, those of the rest. -/
theorem sameSigns_cons : SameSigns (x :: xs) (y :: ys) ↔ (x < 128 ↔ y < 128) ∧
    (x = y → SameSigns xs ys) := by
  constructor
  · intro same
    refine ⟨same [] x y xs ys rfl rfl, ?_⟩
    rintro rfl p x' y' s t first second
    exact same (x :: p) x' y' s t (by rw [first]; rfl) (by rw [second]; rfl)
  · rintro ⟨head, tail⟩ (_ | ⟨z, p⟩) x' y' s t first second
    · obtain ⟨rfl, rfl⟩ := List.cons.inj first
      obtain ⟨rfl, rfl⟩ := List.cons.inj second
      exact head
    · obtain ⟨rfl, rfl⟩ := List.cons.inj first
      obtain ⟨rfl, rfl⟩ := List.cons.inj second
      exact tail rfl p x' y' s t rfl rfl

/-- Bytes compared with their signs are in the unsigned order exactly where no two of them have
different signs. -/
theorem orderBy_charReg_iff : orderBy charReg xs ys = orderOf xs ys ↔ SameSigns xs ys := by
  induction xs generalizing ys with
  | nil => cases ys <;> simp [orderBy, orderOf, sameSigns_nil]
  | cons x xs ih =>
      obtain _ | ⟨y, ys⟩ := ys
      · simp [orderBy, orderOf, sameSigns_nil']
      rw [sameSigns_cons, orderBy]
      obtain less | rfl | greater := trichotomy x y
      · have apart := UInt8.ne_of_lt less
        obtain ⟨forth, back⟩ := ilt_charReg less
        rw [orderOf_cons_less less, forth, back]
        by_cases same : x < 128 ↔ y < 128 <;> simp [same, apart]
      · simp [orderOf_cons_same, ilt_self, ih]
      · have apart := (UInt8.ne_of_lt greater).symm
        obtain ⟨forth, back⟩ := ilt_charReg greater
        rw [orderOf_cons_greater greater, forth, back]
        by_cases same : y < 128 ↔ x < 128 <;> simp [same, apart, @Iff.comm (x < 128)]

end Orders

section Runs

variable {fuel i l m n : Nat} {a b : Allocation 65536} {result : Allocation 8}

/-- A turn over two bytes that leaves the loop where they differ. -/
theorem exits_orderBy {σ : Type} {body : σ → Option (σ ⊕ Register)} {reg : UInt8 → Register}
    {x y : UInt8} {xs ys : List UInt8} {s s' : σ}
    (turn : body s = some (if ilt (reg x) (reg y) then .inr (-1) else if ilt (reg y)
      (reg x) then .inr 1 else .inl s'))
    (rest : exits body fuel s' = some (orderBy reg xs ys)) :
    exits body (fuel + 1) s = some (orderBy reg (x :: xs) (y :: ys)) := by
  rw [orderBy]
  by_cases less : ilt (reg x) (reg y) = true
  · rw [if_pos less] at turn ⊢
    exact exits_leave turn
  by_cases greater : ilt (reg y) (reg x) = true
  · rw [if_neg less, if_pos greater] at turn ⊢
    exact exits_leave turn
  rw [if_neg less, if_neg greater] at turn ⊢
  rw [exits_next turn]
  exact rest

/-- The loop of `mem-compare` decides at the first difference. -/
theorem memCompareBody_eq {bound : Register} (more : ige (count i) bound = false)
    (inside : i < 65536) :
    memCompareBody a b bound (count i) = some
      (if ilt (byteReg (a.bytes i)) (byteReg (b.bytes i)) then .inr (-1)
      else if ilt (byteReg (b.bytes i)) (byteReg (a.bytes i)) then .inr 1
      else .inl (count (i + 1))) := by
  simp only [memCompareBody, more, load_char inside (show i < 2 ^ 63 by omega),
    Option.bind_eq_bind, Option.bind_some,
    charReg_and_255, count_succ, Bool.false_eq_true, if_false]
  split_ifs <;> rfl

/-- `mem-compare` from a place on. -/
theorem memCompare_from (le : i + n ≤ 65536) (enough : n < fuel) :
    exits (memCompareBody a b (count (i + n))) fuel (count i) =
      some (orderBy byteReg (a.bytes.bytes i n) (b.bytes.bytes i n)) := by
  induction n generalizing i fuel with
  | zero =>
      obtain ⟨fuel, rfl⟩ := Nat.exists_eq_add_one_of_ne_zero (Nat.ne_of_gt enough)
      refine exits_leave ?_
      rw [memCompareBody, ige_counts (by omega) (by omega), decide_eq_true (by omega)]
      rfl
  | succ n ih =>
      obtain ⟨fuel, rfl⟩ := Nat.exists_eq_add_one_of_ne_zero
        (Nat.ne_of_gt (Nat.zero_lt_of_lt enough))
      have more : ige (count i) (count (i + (n + 1))) = false :=
        ige_counts_before (by omega) (by omega)
      have turn := @memCompareBody_eq i a b _ more (by omega)
      have rest := @ih fuel (i + 1) (by omega) (by omega)
      rw [Nat.add_right_comm] at rest
      rw [Buffer.bytes_cons, Buffer.bytes_cons]
      exact exits_orderBy turn rest

/-- `mem-compare` finds the unsigned order of the first bytes. -/
theorem memCompare_eq {len : Allocation 8} (read : len.bytes.load 0 8 = n) (le : n ≤ 65536)
    (enough : n < fuel) :
    memCompare fuel a b len result =
      some ⟨result.bytes.store 0 (orderOf (a.bytes.bytes 0 n) (b.bytes.bytes 0 n)).toNat 8⟩ := by
  have counted : intIn len = count n := by rw [intIn, read]
  have compared := @memCompare_from fuel 0 n a b (by omega) enough
  rw [Nat.zero_add, count_zero] at compared
  simp only [memCompare, load_intIn, counted, Option.bind_eq_bind, Option.bind_some]
  rw [compared, Option.bind_some, store_int, orderBy_byteReg]

/-- The loop of `compare` decides at the first difference or the end of a text. -/
theorem compareBody_eq (inside : i < 65536) : compareBody a b (count i) = some
    (if a.bytes i = 0 ∧ b.bytes i = 0 then .inr 0
    else if a.bytes i = 0 then .inr (-1)
    else if b.bytes i = 0 then .inr 1
    else if ilt (charReg (a.bytes i)) (charReg (b.bytes i)) then .inr (-1)
    else if ilt (charReg (b.bytes i)) (charReg (a.bytes i)) then .inr 1
    else .inl (count (i + 1))) := by
  have more : ige (count i) 65536 = false := ige_before (n := 65536) rfl inside (by decide)
  simp only [compareBody, more, load_char inside (show i < 2 ^ 63 by omega),
    Option.bind_eq_bind, Option.bind_some,
    charReg_eq_zero, count_succ, Bool.false_eq_true, if_false]
  split_ifs <;> rfl

/-- `compare` from a place in both texts on. -/
theorem compare_from (length : (a.bytes.text 65536).length = i + l)
    (length' : (b.bytes.text 65536).length = i + m)
    (short : i + l < 65536) (short' : i + m < 65536) (enough : l < fuel) :
    exits (compareBody a b) fuel (count i) =
      some (orderBy charReg (a.bytes.bytes i l) (b.bytes.bytes i m)) := by
  induction l generalizing i m fuel with
  | zero =>
      obtain ⟨fuel, rfl⟩ := Nat.exists_eq_add_one_of_ne_zero (Nat.ne_of_gt enough)
      have null : a.bytes i = 0 := by simpa [length] using @Buffer.text_end a.bytes 65536 (by omega)
      have turn := @compareBody_eq i a b (by omega)
      rw [if_pos null] at turn
      refine exits_leave (turn.trans ?_)
      obtain _ | m := m
      · have null' : b.bytes i = 0 := by
          simpa [length'] using @Buffer.text_end b.bytes 65536 (by omega)
        rw [if_pos ⟨null, null'⟩]
        rfl
      · have char : b.bytes i ≠ 0 := @Buffer.text_ne_zero b.bytes 65536 i (by omega)
        rw [if_neg fun both => char both.2, Buffer.bytes_cons]
        rfl
  | succ l ih =>
      obtain ⟨fuel, rfl⟩ := Nat.exists_eq_add_one_of_ne_zero
        (Nat.ne_of_gt (Nat.zero_lt_of_lt enough))
      have char : a.bytes i ≠ 0 := @Buffer.text_ne_zero a.bytes 65536 i (by omega)
      have turn := @compareBody_eq i a b (by omega)
      rw [if_neg fun both => char both.1, if_neg char] at turn
      obtain _ | m := m
      · have null' : b.bytes i = 0 := by
          simpa [length'] using @Buffer.text_end b.bytes 65536 (by omega)
        rw [if_pos null'] at turn
        rw [exits_leave turn, Buffer.bytes_cons]
        rfl
      have char' : b.bytes i ≠ 0 := @Buffer.text_ne_zero b.bytes 65536 i (by omega)
      rw [if_neg char'] at turn
      rw [Buffer.bytes_cons, Buffer.bytes_cons]
      exact exits_orderBy turn (ih (by omega) (by omega) (by omega) (by omega) (by omega))

/-- `compare` finds the order of the texts with the bytes as signed numbers. -/
theorem compare_eq (short : (a.bytes.text 65536).length < 65536)
    (short' : (b.bytes.text 65536).length < 65536)
    (enough : 65536 < fuel) : compare fuel a b result =
      some ⟨result.bytes.store 0 (orderBy charReg (a.bytes.text 65536)
        (b.bytes.text 65536)).toNat 8⟩ := by
  obtain ⟨l, length⟩ : ∃ l, (a.bytes.text 65536).length = l := ⟨_, rfl⟩
  obtain ⟨m, length'⟩ : ∃ m, (b.bytes.text 65536).length = m := ⟨_, rfl⟩
  have compared : exits (compareBody a b) fuel 0 = _ :=
    compare_from (i := 0) (length.trans (Nat.zero_add l).symm)
    (length'.trans (Nat.zero_add m).symm) (by omega) (by omega) (by omega)
  rw [compare, compared, Buffer.text_eq_bytes, length, @Buffer.text_eq_bytes b.bytes, length']
  exact store_int _ _

/-- The order of two texts is the order of their bytes up to the first terminator. -/
theorem orderOf_bytes (length : (a.bytes.text 65536).length = i + l)
    (length' : (b.bytes.text 65536).length = i + m)
    (short : i + l < 65536) (short' : i + m < 65536) :
    orderOf (a.bytes.bytes i (min l m + 1)) (b.bytes.bytes i (min l m + 1)) =
      orderOf (a.bytes.bytes i l) (b.bytes.bytes i m) := by
  induction l generalizing i m with
  | zero =>
      have null : a.bytes i = 0 := by simpa [length] using @Buffer.text_end a.bytes 65536 (by omega)
      obtain _ | m := m
      · have null' : b.bytes i = 0 := by
          simpa [length'] using @Buffer.text_end b.bytes 65536 (by omega)
        rw [Nat.min_self, Buffer.bytes_cons, Buffer.bytes_cons, null, null', orderOf_cons_same]
        rfl
      · have char : b.bytes i ≠ 0 := @Buffer.text_ne_zero b.bytes 65536 i (by omega)
        rw [Nat.zero_min, Buffer.bytes_cons, Buffer.bytes_cons, null,
          orderOf_cons_less (UInt8.pos_iff_ne_zero.mpr char)]
        rw [Buffer.bytes_cons]
        simp [orderOf, Buffer.bytes]
  | succ l ih =>
      have char : a.bytes i ≠ 0 := @Buffer.text_ne_zero a.bytes 65536 i (by omega)
      obtain _ | m := m
      · have null' : b.bytes i = 0 := by
          simpa [length'] using @Buffer.text_end b.bytes 65536 (by omega)
        rw [Nat.min_zero, Buffer.bytes_cons, Buffer.bytes_cons, null',
          orderOf_cons_greater (UInt8.pos_iff_ne_zero.mpr char)]
        rw [Buffer.bytes_cons]
        simp [orderOf, Buffer.bytes]
      rw [Nat.succ_min_succ, Buffer.bytes_cons, @Buffer.bytes_cons b.bytes,
        @Buffer.bytes_cons a.bytes _ l, @Buffer.bytes_cons b.bytes _ m]
      obtain less | same | greater := trichotomy (a.bytes i) (b.bytes i)
      · rw [orderOf_cons_less less, orderOf_cons_less less]
      · rw [same, orderOf_cons_same, orderOf_cons_same]
        exact ih (by omega) (by omega) (by omega) (by omega)
      · rw [orderOf_cons_greater greater, orderOf_cons_greater greater]

end Runs

section Agreement

variable {fuel : Nat} {a b : Allocation 65536} {len result result' : Allocation 8}

/-- `compare` returns the unsigned order of the texts, and what `mem-compare` returns for them
with their terminator. -/
def ComparesUnsigned (fuel : Nat) (a b : Allocation 65536) (len result result' : Allocation 8) :
    Prop :=
  ∃ order order', compare fuel a b result = some order ∧ memCompare fuel a b len result' =
    some order' ∧
    intIn order = orderOf (a.bytes.text 65536) (b.bytes.text 65536) ∧ intIn order = intIn order'

/-- Texts are in the unsigned order exactly where no bytes behind a common prefix have different
signs. -/
theorem comparesUnsigned_iff (short : (a.bytes.text 65536).length < 65536)
    (short' : (b.bytes.text 65536).length < 65536)
    (read : len.bytes.load 0 8 = min (a.bytes.text 65536).length (b.bytes.text 65536).length +
      1) (enough : 65536 < fuel) :
    ComparesUnsigned fuel a b len result result' ↔
      SameSigns (a.bytes.text 65536) (b.bytes.text 65536) := by
  have order := @orderOf_bytes 0 _ _ a b (Nat.zero_add _).symm (Nat.zero_add _).symm (by omega)
    (by omega)
  rw [← Buffer.text_eq_bytes, ← Buffer.text_eq_bytes] at order
  unfold ComparesUnsigned
  rw [compare_eq short short' enough, memCompare_eq read (by omega) (by omega), order,
    ← orderBy_charReg_iff]
  have stored : ∀ (r : Register) (a : Allocation 8), intIn ⟨a.bytes.store 0 r.toNat 8⟩ = r :=
    intIn_store
  constructor
  · rintro ⟨_, _, ⟨rfl⟩, ⟨rfl⟩, ordered, -⟩
    rwa [stored] at ordered
  · intro ordered
    refine ⟨_, _, rfl, rfl, ?_, ?_⟩
    · rw [stored, ordered]
    · rw [stored, stored, ordered]

/-- A text and a longer one. -/
theorem comparesUnsigned_iff_short :
    ComparesUnsigned 70000 (onesUpTo 65536 2) (onesUpTo 65536 3) (intOf 3) (intOf 0) (intOf 0) ↔
      SameSigns ((onesUpTo 65536 2).bytes.text 65536) ((onesUpTo 65536 3).bytes.text 65536) :=
  comparesUnsigned_iff (by rw [length_onesUpTo (by decide)]; decide)
    (by rw [length_onesUpTo (by decide)]; decide)
    (by rw [length_onesUpTo (by decide), length_onesUpTo (by decide), load_intOf (by decide)]; rfl) (by decide)

/-- The byte 128 is taken for less than the byte 1. -/
theorem compare_high : ¬ ∃ fuel > 65536,
    ComparesUnsigned fuel ⟨fun i => if i = 0 then 128 else 0⟩ (onesUpTo 65536 1)
    (intOf 2) (intOf 0) (intOf 0) := by
  rintro ⟨fuel, enough, _, _, compared, -, ordered, -⟩
  have length : (Buffer.text (fun i => if i = 0 then 128 else 0) 65536).length = 1 :=
    Buffer.length_text (by decide) (fun i below => by rw [if_pos (by omega)]; decide) fun _ =>
      if_neg (by decide)
  have length' := @length_onesUpTo 65536 1 (by decide)
  rw [compare_eq (by rw [length]; decide) (by rw [length']; decide) enough] at compared
  obtain rfl := Option.some.inj compared
  rw [intIn_store, orderBy_charReg_iff, Buffer.text_eq_bytes, length,
    @Buffer.text_eq_bytes (onesUpTo 65536 1).bytes,
    length'] at ordered
  exact absurd (ordered [] 128 1 [] [] rfl rfl) (by decide)

end Agreement

end Sigil.Stdlib
