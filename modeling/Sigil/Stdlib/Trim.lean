import Sigil.Stdlib.Scan

/-!
# The behavior `trim`

The range of a text without the whitespace around it.
-/

namespace Sigil.Stdlib

open Flow

/-- `is_ws` -/
def isWhitespace (byte : Register) : Bool := (byte = 32 || byte = 9) || (byte = 10 || byte = 13)

/-- `find_start` to `inc_start`: the place of the first character, none where only whitespace is
left -/
def findStartBody (data : Allocation 65536) (len start : Register) :
    Option (Register ⊕ Option Register) := do
  if ige start len then return .inr none
  let byte ← data.load 1 start
  if isWhitespace byte then return .inl (start + 1)
  return .inr (some start)

/-- `find_end` to `dec_end` -/
def findEndBody (data : Allocation 65536) (start end_ : Register) :
    Option (Register ⊕ Option Register) := do
  if ilt end_ start then return .inr none
  let byte ← data.load 1 end_
  if isWhitespace byte then return .inl (end_ - 1)
  return .inr (some end_)

/-- `all_whitespace` -/
def allWhitespace (trimmed : Allocation 16) : Option (Allocation 16) := do
  let trimmed ← trimmed.store 0 8 0
  trimmed.store 0 8 8

def trim (fuel : Nat) (data : Allocation 65536) (trimmed : Allocation 16) :
    Option (Allocation 16) := do
  let len ← getLengthBefore fuel data 65536
  let end_init := len - 1
  match ← exits (findStartBody data len) fuel 0 with
  | none => allWhitespace trimmed
  | some start =>
      match ← exits (findEndBody data start) fuel end_init with
      | none => allWhitespace trimmed
      | some end_ =>
          let trim_len := end_ - start
          let trim_len := trim_len + 1
          let trimmed ← trimmed.store start 8 0
          trimmed.store trim_len 8 8

section Ranges

/-- Space, tab, newline and carriage return. -/
def IsSpace (c : UInt8) : Prop := c = 32 ∨ c = 9 ∨ c = 10 ∨ c = 13

instance (c : UInt8) : Decidable (IsSpace c) := inferInstanceAs (Decidable (_ ∨ _))

/-- The range of a text that starts and ends with other characters than whitespace and has only
whitespace around it. -/
structure Trimmed (text : List UInt8) (offset length : Nat) : Prop where
  positive : 0 < length
  inside : offset + length ≤ text.length
  first : ∀ c, text[offset]? = some c → ¬ IsSpace c
  last : ∀ c, text[offset + length - 1]? = some c → ¬ IsSpace c
  outside : ∀ i c, text[i]? = some c → i < offset ∨ offset + length ≤ i → IsSpace c

variable {text : List UInt8} {offset offset' length length' : Nat}

/-- Of two trimmed ranges neither starts behind the other. -/
theorem Trimmed.starts (trimmed : Trimmed text offset length)
    (trimmed' : Trimmed text offset' length') : offset ≤ offset' := by
  by_contra before
  have inside := trimmed'.inside
  have positive := trimmed'.positive
  have char := List.getElem?_eq_getElem (show offset' < text.length by omega)
  exact trimmed'.first _ char (trimmed.outside offset' _ char (.inl (by omega)))

/-- Of two trimmed ranges neither ends in front of the other. -/
theorem Trimmed.ends (trimmed : Trimmed text offset length)
    (trimmed' : Trimmed text offset' length') :
    offset' + length' ≤ offset + length := by
  by_contra behind
  have inside := trimmed'.inside
  have positive := trimmed'.positive
  have char := List.getElem?_eq_getElem (show offset' + length' - 1 < text.length by omega)
  exact trimmed'.last _ char (trimmed.outside _ _ char (.inr (by omega)))

/-- There is one trimmed range. -/
theorem Trimmed.unique (trimmed : Trimmed text offset length)
    (trimmed' : Trimmed text offset' length') :
    offset' = offset ∧ length' = length := by
  have starts := trimmed.starts trimmed'
  have starts' := trimmed'.starts trimmed
  have ends := trimmed.ends trimmed'
  have ends' := trimmed'.ends trimmed
  omega

end Ranges

section Trimming

variable {fuel n o e : Nat} {data : Allocation 65536} {trimmed : Allocation 16} {b : UInt8}

/-- The test for blanks on a register is that on the byte. -/
theorem isWhitespace_charReg : isWhitespace (charReg b) = decide (IsSpace b) := by
  have space : charReg b = 32 ↔ b = 32 := charReg_inj (c := 32)
  have tab : charReg b = 9 ↔ b = 9 := charReg_inj (c := 9)
  have newline : charReg b = 10 ↔ b = 10 := charReg_inj (c := 10)
  have cr : charReg b = 13 ↔ b = 13 := charReg_inj (c := 13)
  rw [Bool.eq_iff_iff, decide_eq_true_iff]
  simp only [isWhitespace, IsSpace, space, tab, newline, cr, Bool.or_eq_true, decide_eq_true_eq,
    or_assoc]

/-- The loop from the front passes a blank and stops at another byte. -/
theorem findStartBody_eq {i : Nat} (below : i < n) (le : n ≤ 65536) :
    findStartBody data (count n) (count i) =
    some (if IsSpace (data.bytes i) then .inl (count (i + 1)) else .inr (some (count i))) := by
  have more : ige (count i) (count n) = false := ige_counts_before (by omega) (by omega)
  simp only [findStartBody, more, load_char (show i < 65536 by omega) (by omega),
    Option.bind_eq_bind, Option.bind_some,
    isWhitespace_charReg, decide_eq_true_eq, count_succ, Bool.false_eq_true, if_false]
  split_ifs <;> rfl

/-- The loop from the back passes a blank and stops at another byte. -/
theorem findEndBody_eq {i : Nat} (from_ : o ≤ i) (inside : i < 65536) :
    findEndBody data (count o) (count i) =
    some (if IsSpace (data.bytes i) then .inl (count i - 1) else .inr (some (count i))) := by
  have more : ilt (count i) (count o) = false := by
    rw [ilt_counts (by omega) (by omega), decide_eq_false (by omega)]
  simp only [findEndBody, more, load_char inside (by omega), Option.bind_eq_bind, Option.bind_some,
    isWhitespace_charReg, decide_eq_true_eq, Bool.false_eq_true, if_false]
  split_ifs <;> rfl

/-- Only whitespace. -/
theorem findStart_none (spaces : ∀ i < n, IsSpace (data.bytes i)) (le : n ≤ 65536)
    (enough : n < fuel) :
    exits (findStartBody data (count n)) fuel 0 = some none := by
  refine exits_along_leave (n := n) (p := count) (fun i below => ?_) ?_ enough
  · rw [findStartBody_eq below le, if_pos (spaces i below)]
  · rw [findStartBody, ige_counts (by omega) (by omega), decide_eq_true (Nat.le_refl n)]
    rfl

/-- The loop from the front finds the first byte that is no blank. -/
theorem findStart_some (spaces : ∀ i < o, IsSpace (data.bytes i))
    (char : ¬ IsSpace (data.bytes o)) (inside : o < n)
    (le : n ≤ 65536) (enough : n < fuel) :
      exits (findStartBody data (count n)) fuel 0 = some (some (count o)) := by
  refine exits_along_leave (n := o) (p := count) (fun i below => ?_) ?_ (inside.trans enough)
  · rw [findStartBody_eq (by omega) le, if_pos (spaces i below)]
  · rw [findStartBody_eq inside le, if_neg char]

/-- The loop from the back finds the last byte that is no blank. -/
theorem findEnd_some (spaces : ∀ i, e < i → i < n → IsSpace (data.bytes i))
    (char : ¬ IsSpace (data.bytes e)) (from_ : o ≤ e)
    (inside : e < n) (le : n ≤ 65536) (enough : n < fuel) :
    exits (findEndBody data (count o)) fuel (count n - 1) = some (some (count e)) := by
  have start : count n - 1 = count (n - 1 - 0) := count_sub (j := 1) (by omega)
  rw [start]
  refine exits_along_leave (n := n - 1 - e) (p := fun j => count (n - 1 - j))
    (fun j below => ?_) ?_ (by omega)
  · have next : count (n - 1 - j) - 1 = count (n - 1 - (j + 1)) := count_sub (j := 1) (by omega)
    rw [findEndBody_eq (by omega) (by omega), if_pos (spaces _ (by omega) (by omega)), next]
  · rw [show n - 1 - (n - 1 - e) = e by omega, findEndBody_eq from_ (by omega), if_neg char]

/-- The range stored is the range loaded. -/
theorem load_ranges {off len : Register} :
    (Buffer.store (Buffer.store trimmed.bytes 0 off.toNat 8) 8 len.toNat 8).load 0 8 = off.toNat ∧
    (Buffer.store (Buffer.store trimmed.bytes 0 off.toNat 8) 8 len.toNat 8).load 8 8 =
      len.toNat := by
  constructor
  · rw [Buffer.load_store_of_outside (by omega), Buffer.load_store off.isLt]
  · exact Buffer.load_store len.isLt

/-- The offset and the length are stored one behind the other. -/
theorem store_range {off len : Register} : (do
    let trimmed ← trimmed.store off 8 0
    trimmed.store len 8 8) = some ⟨Buffer.store (Buffer.store trimmed.bytes 0 off.toNat 8) 8
      len.toNat 8⟩ := by
  rw [Allocation.store_inside (show (0 : Register).toNat + 8 ≤ 16 by decide)]
  exact Allocation.store_inside (show (8 : Register).toNat + 8 ≤ 16 by decide)

/-- `trim` returns an empty range for whitespace only, and otherwise the one range that is
trimmed. -/
theorem trim_range (enough : 65536 < fuel) : ∃ trimmed', trim fuel data trimmed = some trimmed' ∧
    ((∀ c ∈ data.bytes.text 65536, IsSpace c) → trimmed'.bytes.load 0 8 = 0 ∧
      trimmed'.bytes.load 8 8 = 0) ∧
    ((∃ c ∈ data.bytes.text 65536, ¬ IsSpace c) →
      ∀ offset length, Trimmed (data.bytes.text 65536) offset length ↔
      offset = trimmed'.bytes.load 0 8 ∧ length = trimmed'.bytes.load 8 8) := by
  have scanned : getLengthBefore fuel data 65536 = some (count (data.bytes.text 65536).length) :=
    getLengthBefore_eq rfl (by decide) enough
  obtain ⟨n, size⟩ : ∃ n, (data.bytes.text 65536).length = n := ⟨_, rfl⟩
  have le : n ≤ 65536 := size ▸ Buffer.length_text_le
  simp only [trim, scanned, size, Option.bind_eq_bind, Option.bind_some]
  by_cases spaces : ∀ i < n, IsSpace (data.bytes i)
  · rw [findStart_none spaces le (by omega), Option.bind_some]
    refine ⟨_, store_range, fun _ => load_ranges, ?_⟩
    rintro ⟨c, mem, char⟩
    obtain ⟨i, below, rfl⟩ := Buffer.mem_text.mp mem
    exact absurd (spaces i (size ▸ below)) char
  · push Not at spaces
    obtain ⟨o, ⟨inside, char⟩, before⟩ :
      ∃ o, (o < n ∧ ¬ IsSpace (data.bytes o)) ∧ ∀ i < o, IsSpace (data.bytes i) := by
      refine ⟨Nat.find spaces, Nat.find_spec spaces, fun i below => ?_⟩
      by_contra other
      exact Nat.find_min spaces below ⟨below.trans (Nat.find_spec spaces).1, other⟩
    obtain ⟨e, ⟨from_, below, char'⟩, behind⟩ :
        ∃ e, (o ≤ e ∧ e < n ∧ ¬ IsSpace (data.bytes e)) ∧ ∀ i, e < i → i < n →
          IsSpace (data.bytes i) := by
      have back : ∃ j, n - 1 - j < n ∧ ¬ IsSpace (data.bytes (n - 1 - j)) :=
        ⟨n - 1 - o, by omega, by rwa [show n - 1 - (n - 1 - o) = o by omega]⟩
      have behind : ∀ i, n - 1 - Nat.find back < i → i < n → IsSpace (data.bytes i) := by
        intro i above below
        by_contra other
        refine Nat.find_min back (show n - 1 - i < Nat.find back by omega) ?_
        rw [show n - 1 - (n - 1 - i) = i by omega]
        exact ⟨below, other⟩
      refine ⟨n - 1 - Nat.find back, ⟨?_, Nat.find_spec back⟩, behind⟩
      by_contra early
      exact char (behind o (by omega) inside)
    rw [findStart_some before char inside le (by omega), Option.bind_some]
    simp only [findEnd_some behind char' from_ below le (show n < fuel by omega),
      Option.bind_some, count_sub from_, count_succ]
    refine ⟨_, store_range, fun spaces => ?_, fun _ offset length => ?_⟩
    · exact absurd (spaces _ (Buffer.mem_text.mpr ⟨o, size ▸ inside, rfl⟩)) char
    · have range : Trimmed (data.bytes.text 65536) o (e - o + 1) := by
        refine ⟨Nat.succ_pos _, by omega, fun c at_ => ?_, fun c at_ => ?_, fun i c at_ apart => ?_⟩
        · rw [Buffer.getElem?_text (size ▸ inside)] at at_
          obtain rfl := Option.some.inj at_
          exact char
        · rw [show o + (e - o + 1) - 1 = e by omega, Buffer.getElem?_text (size ▸ below)] at at_
          obtain rfl := Option.some.inj at_
          exact char'
        · have inside' : i < (data.bytes.text 65536).length := (List.getElem?_eq_some_iff.mp at_).1
          rw [Buffer.getElem?_text inside'] at at_
          obtain rfl := Option.some.inj at_
          obtain earlier | later := apart
          · exact before i earlier
          · exact behind i (by omega) (by omega)
      obtain ⟨first, second⟩ := @load_ranges trimmed (count o) (count (e - o + 1))
      have counted : (count (e - o + 1)).toNat = e - o + 1 := toNat_count (by omega)
      rw [toNat_count (show o < 2 ^ 63 by omega), counted] at first second ⊢
      rw [first, second]
      constructor
      · exact fun trimmed' => range.unique trimmed'
      · rintro ⟨rfl, rfl⟩
        exact range

/-- `  a b`, a tab and a newline -/
def spacedText : List UInt8 := [32, 32, 97, 32, 98, 9, 10]

/-- White space at both ends. -/
theorem trim_range_spaced : ∃ trimmed', trim 70000 (holding 65536 spacedText) ⟨fun _ => 0⟩ =
    some trimmed' ∧
    ∀ offset length, Trimmed spacedText offset length ↔
      offset = trimmed'.bytes.load 0 8 ∧ length = trimmed'.bytes.load 8 8 := by
  have text : (holding 65536 spacedText).bytes.text 65536 = spacedText :=
    text_holding (by simp [spacedText]) (by simp [spacedText])
  obtain ⟨trimmed', ran, -, range⟩ :=
    @trim_range 70000 (holding 65536 spacedText) ⟨fun _ => 0⟩ (by decide)
  rw [text] at range
  exact ⟨trimmed', ran, range ⟨97, by simp [spacedText], by simp [IsSpace]⟩⟩

end Trimming

end Sigil.Stdlib
