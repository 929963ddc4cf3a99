import Sigil.Flow.Pieces
import Sigil.Stdlib.Matching

/-!
# The behavior `replace`

The text between the occurrences of a needle, with another text in their place. The bytes that are
stored are masked before, which leaves what a store of one byte keeps.
-/

namespace Sigil.Stdlib

open Flow

/-- The registers and the result of the copying loop. -/
structure Replacing where
  i : Register
  o : Register
  result : Allocation 131072

/-- `mloop` to `mnext`, with both bytes masked -/
def maskedMatchBody (src old : Allocation 65536) (i olen j : Register) :
    Option (Register ⊕ Bool) := do
  if ige j olen then return .inr true
  let sij := i + j
  let sc ← src.load 1 sij
  let sc := sc &&& 255
  let oc ← old.load 1 j
  let oc := oc &&& 255
  if sc ≠ oc then return .inr false
  return .inl (j + 1)

def copyOne (src : Allocation 65536) (s : Replacing) : Option Replacing := do
  let sc1 ← src.load 1 s.i
  let sc1 := sc1 &&& 255
  let result ← s.result.store sc1 1 s.o
  return ⟨s.i + 1, s.o + 1, result⟩

/-- The blocks `loop` to `copyone` -/
def replaceBody (fuel : Nat) (src old new : Allocation 65536) (slen olen nlen : Register)
    (s : Replacing) :
    Option (Replacing ⊕ Replacing) := do
  if ige s.i slen then return .inr s
  if ile olen 0 then
    let s ← copyOne src s
    return .inl s
  let iplus := s.i + olen
  if ilt slen iplus then
    let s ← copyOne src s
    return .inl s
  if ← exits (maskedMatchBody src old s.i olen) fuel 0 then
    let result ← exits (maskedCopyBody new 0 nlen s.o) fuel (0, s.result)
    return .inl ⟨s.i + olen, s.o + nlen, result⟩
  let s ← copyOne src s
  return .inl s

def replace (fuel : Nat) (src : Allocation 65536) (src_len : Allocation 8)
    (old : Allocation 65536) (old_len : Allocation 8)
    (new : Allocation 65536) (new_len : Allocation 8) (result : Allocation 131072)
      (length : Allocation 8) :
    Option (Allocation 131072 × Allocation 8) := do
  let slen ← src_len.load 8 0
  let olen ← old_len.load 8 0
  let nlen ← new_len.load 8 0
  let s ← exits (replaceBody fuel src old new slen olen nlen) fuel ⟨0, 0, result⟩
  let result ← s.result.store 0 1 s.o
  let length ← length.store s.o 8 0
  return (result, length)

/-- The masked comparison decides as the plain one. -/
theorem maskedMatchBody_eq {src old : Allocation 65536} {i olen : Register} :
    maskedMatchBody src old i olen = matchBody src old olen i := by
  funext j
  rw [maskedMatchBody, matchBody]
  by_cases done : ige j olen = true
  · rw [if_pos done, if_pos done]
  rw [if_neg done, if_neg done]
  cases loaded : src.load 1 (i + j) with
  | none => simp only [loaded, Option.bind_eq_bind, Option.bind_none]
  | some v =>
      cases loaded' : old.load 1 j with
      | none => simp only [loaded, Option.bind_eq_bind, Option.bind_some, Option.bind_none]
      | some w =>
          obtain ⟨c, rfl⟩ := exists_char loaded
          obtain ⟨d, rfl⟩ := exists_char loaded'
          simp only [loaded, Option.bind_eq_bind, Option.bind_some, charReg_and_255,
            Ne, byteReg_inj, charReg_inj]
          by_cases same : c = d
          · rw [if_neg (not_not.mpr same), if_pos same]
          · rw [if_pos same, if_neg same]

section Scanning

variable {fuel fuel' i o s m n : Nat} {src old new : Allocation 65536} {result : Allocation 131072}

/-- One byte is copied and both places go on. -/
theorem copyOne_eq (inside : i < 65536) (room : o < 131072) :
    copyOne src ⟨count i, count o, result⟩ =
    some ⟨count (i + 1), count (o + 1), ⟨Function.update result.bytes o (src.bytes i)⟩⟩ := by
  simp only [copyOne, load_char inside (by omega), store_char room (by omega),
    Option.bind_eq_bind, Option.bind_some,
    charReg_and_255, ofNat_byteReg, count_succ]
  rfl

/-- One turn of the scan. -/
theorem replaceBody_eq (below : i < s) (le : s ≤ 65536) (le' : m ≤ 65536) (le₂ : n ≤ 65536)
    (enough : 65536 < fuel)
    (room : o + (if 0 < m ∧ m ≤ s - i ∧ old.bytes.bytes 0 m = src.bytes.bytes i m then n else 1)
      ≤ 131072) :
    replaceBody fuel src old new (count s) (count m) (count n) ⟨count i, count o, result⟩ =
      some (.inl (if 0 < m ∧ m ≤ s - i ∧ old.bytes.bytes 0 m = src.bytes.bytes i m
        then ⟨count (i + m), count (o + n), ⟨Buffer.copy new.bytes 0 result.bytes o n⟩⟩
        else ⟨count (i + 1), count (o + 1), ⟨Function.update result.bytes o (src.bytes i)⟩⟩)) := by
  have more : ige (count i) (count s) = false := ige_counts_before (by omega) (by omega)
  have empty : ile (count m) 0 = decide (m = 0) := by
    have zero : ige (count 0) (count m) = decide (m ≤ 0) := ige_counts (by omega) (by omega)
    rw [show ile (count m) 0 = ige (count 0) (count m) from rfl, zero]
    simp
  have long : ilt (count s) (count (i + m)) = decide (s < i + m) := ilt_counts (by omega) (by omega)
  simp only [replaceBody, more, empty, count_add, long, maskedMatchBody_eq, maskedCopyBody_eq,
    decide_eq_true_eq, Bool.false_eq_true, if_false]
  by_cases found : 0 < m ∧ m ≤ s - i ∧ old.bytes.bytes 0 m = src.bytes.bytes i m
  · rw [if_pos found] at room ⊢
    obtain ⟨some_, fits, same⟩ := found
    have copied : exits (copyBody new 0 (count n) (count o)) fuel (0, result) =
      some ⟨Buffer.copy new.bytes 0 result.bytes o n⟩ :=
      exits_copyBody (f := 0) (by omega) room (by decide) (by decide) (by omega)
    rw [if_neg (by omega), if_neg (by omega),
      matchBody_inside le' (by omega) (by decide) (by decide) (by omega), same]
    simp only [decide_true, if_true, copied, Option.bind_eq_bind, Option.bind_some]
    rfl
  · rw [if_neg found] at room ⊢
    have copied := @copyOne_eq i o src result (by omega) (by omega)
    by_cases none_ : m = 0
    · rw [if_pos none_, copied]
      rfl
    by_cases behind : s < i + m
    · rw [if_neg none_, if_pos behind, copied]
      rfl
    have differs : ¬ old.bytes.bytes 0 m = src.bytes.bytes i m :=
      fun same => found ⟨by omega, by omega, same⟩
    rw [if_neg none_, if_neg behind, matchBody_inside le' (by omega) (by decide) (by decide)
      (by omega), copied, decide_eq_false differs]
    rfl

/-- The scan from a place on: what it appends is the rest of the text with the other one for
each occurrence. -/
theorem replace_from (le : i ≤ s) (le' : s ≤ 65536) (le₂ : m ≤ 65536) (le₃ : n ≤ 65536)
    (enough : 65536 < fuel)
    (room : o + (substitute (old.bytes.bytes 0 m) (new.bytes.bytes 0 n)
      (src.bytes.bytes i (s - i))).length < 131072)
    (turns : s - i < fuel') : ∃ p result',
      exits (replaceBody fuel src old new (count s) (count m) (count n)) fuel'
        ⟨count i, count o, result⟩ =
        some ⟨count s, count p, result'⟩ ∧
      p = o + (substitute (old.bytes.bytes 0 m) (new.bytes.bytes 0 n)
        (src.bytes.bytes i (s - i))).length ∧
      result'.bytes.bytes 0 p = result.bytes.bytes 0 o ++
        substitute (old.bytes.bytes 0 m) (new.bytes.bytes 0 n) (src.bytes.bytes i (s - i)) := by
  induction fuel' generalizing i o result with
  | zero => exact absurd turns (Nat.not_lt_zero _)
  | succ fuel' ih =>
      obtain below | rfl := Nat.lt_or_eq_of_le le
      · have rest : src.bytes.bytes i (s - i) =
          src.bytes i :: src.bytes.bytes (i + 1) (s - (i + 1)) := by
          rw [← Buffer.bytes_cons]
          congr 1
          omega
        by_cases found : 0 < m ∧ m ≤ s - i ∧ old.bytes.bytes 0 m = src.bytes.bytes i m
        · obtain ⟨some_, -⟩ := Buffer.starts_rest_iff.mpr found
          have split : src.bytes.bytes i (s - i) =
            old.bytes.bytes 0 m ++ src.bytes.bytes (i + m) (s - (i + m)) := by
            rw [found.2.2, ← Buffer.bytes_append]
            congr 1
            omega
          rw [split, substitute_found some_, List.length_append, Buffer.length_bytes] at room ⊢
          have turn := @replaceBody_eq fuel i o s m n src old new result below le' le₂ le₃
            enough (by rw [if_pos found]; omega)
          rw [if_pos found] at turn
          obtain ⟨p, result', looped, place, bytes⟩ :=
            @ih (i + m) (o + n) ⟨Buffer.copy new.bytes 0 result.bytes o n⟩
            (by omega) (by omega) (by omega)
          refine ⟨p, result', (exits_next turn).trans looped, by omega, bytes.trans ?_⟩
          rw [Buffer.bytes_append, Buffer.bytes_copy_of_outside (by omega), Nat.zero_add,
            Buffer.bytes_copy, List.append_assoc]
        · have other :
            ¬ (old.bytes.bytes 0 m ≠ [] ∧ old.bytes.bytes 0 m <+:
              src.bytes i :: src.bytes.bytes (i + 1) (s - (i + 1))) := by
            rw [← rest, Buffer.starts_rest_iff]
            exact found
          rw [rest, substitute_other other, List.length_cons] at room ⊢
          have turn := @replaceBody_eq fuel i o s m n src old new result below le' le₂ le₃
            enough (by rw [if_neg found]; omega)
          rw [if_neg found] at turn
          obtain ⟨p, result', looped, place, bytes⟩ :=
            @ih (i + 1) (o + 1) ⟨Function.update result.bytes o (src.bytes i)⟩
            below (by omega) (by omega)
          refine ⟨p, result', (exits_next turn).trans looped, by omega, bytes.trans ?_⟩
          rw [Buffer.bytes_update_last, List.append_assoc]
          rfl
      · have done : replaceBody fuel src old new (count i) (count m) (count n)
          ⟨count i, count o, result⟩ =
            some (.inr ⟨count i, count o, result⟩) := by
          rw [replaceBody, ige_counts (by omega) (by omega), decide_eq_true (Nat.le_refl i)]
          rfl
        rw [Nat.sub_self] at room ⊢
        refine ⟨o, result, exits_leave done, ?_, ?_⟩
        · rw [show src.bytes.bytes i 0 = [] from rfl, substitute_nil]
          rfl
        · rw [show src.bytes.bytes i 0 = [] from rfl, substitute_nil, List.append_nil]

/-- `replace` returns the text with the other one for every occurrence, its length and a
terminator. -/
theorem replace_eq {src_len old_len new_len length : Allocation 8}
    (read : src_len.bytes.load 0 8 = s)
    (read' : old_len.bytes.load 0 8 = m) (read₂ : new_len.bytes.load 0 8 = n) (le : s ≤ 65536)
      (le' : m ≤ 65536) (le₂ : n ≤ 65536)
    (room : (substitute (old.bytes.bytes 0 m) (new.bytes.bytes 0 n)
      (src.bytes.bytes 0 s)).length ≤ 131071) (enough : 65536 < fuel) :
    ∃ result' length', replace fuel src src_len old old_len new new_len result length =
      some (result', length') ∧
      length'.bytes.load 0 8 = (substitute (old.bytes.bytes 0 m) (new.bytes.bytes 0 n)
        (src.bytes.bytes 0 s)).length ∧
      result'.bytes.bytes 0 (length'.bytes.load 0 8 + 1) =
        substitute (old.bytes.bytes 0 m) (new.bytes.bytes 0 n) (src.bytes.bytes 0 s) ++ [0] ∧
      (m = 0 → result'.bytes.bytes 0 s = src.bytes.bytes 0 s) := by
  have counted : intIn src_len = count s := by rw [intIn, read]
  have counted' : intIn old_len = count m := by rw [intIn, read']
  have counted₂ : intIn new_len = count n := by rw [intIn, read₂]
  obtain ⟨p, result', looped, place, bytes⟩ :=
    @replace_from fuel fuel 0 0 s m n src old new result (Nat.zero_le s) le le' le₂ enough
    (by rw [Nat.sub_zero]; omega) (by omega)
  rw [Nat.sub_zero, Nat.zero_add] at place
  rw [Nat.sub_zero, show result.bytes.bytes 0 0 = [] from rfl, List.nil_append] at bytes
  have start : exits (replaceBody fuel src old new (count s) (count m) (count n)) fuel
    ⟨0, 0, result⟩ =
      some ⟨count s, count p, result'⟩ := looped
  have stored : Buffer.load (Buffer.store length.bytes 0 p 8) 0 8 = p :=
    Buffer.load_store (by omega)
  refine ⟨⟨Function.update result'.bytes p 0⟩, ⟨length.bytes.store 0 p 8⟩, ?_,
    stored.trans place, ?_, ?_⟩
  · simp only [replace, load_intIn, counted, counted', counted₂, start, Option.bind_eq_bind,
      Option.bind_some,
      store_char (show p < 131072 by omega) (show p < 2 ^ 63 by omega), store_int,
        toNat_count (show p < 2 ^ 63 by omega)]
    rfl
  · rw [stored, Buffer.bytes_update_last, bytes]
  · rintro rfl
    rw [show old.bytes.bytes 0 0 = [] from rfl, substitute_empty] at place bytes
    rw [Buffer.length_bytes] at place
    subst place
    exact (Buffer.bytes_update_of_outside (by omega)).trans bytes

/-- Two bytes of three replaced by one. -/
theorem replace_eq_ones : ∃ result' length',
    replace 70000 (onesUpTo 65536 3) (intOf 3) (onesUpTo 65536 2) (intOf 2)
      (onesUpTo 65536 1) (intOf 1) ⟨fun _ => 0⟩ (intOf 0) = some (result', length') ∧
    length'.bytes.load 0 8 = (substitute ((onesUpTo 65536 2).bytes.bytes 0 2)
      ((onesUpTo 65536 1).bytes.bytes 0 1)
      ((onesUpTo 65536 3).bytes.bytes 0 3)).length ∧
    result'.bytes.bytes 0 (length'.bytes.load 0 8 + 1) =
      substitute ((onesUpTo 65536 2).bytes.bytes 0 2)
      ((onesUpTo 65536 1).bytes.bytes 0 1) ((onesUpTo 65536 3).bytes.bytes 0 3) ++ [0] ∧
    (2 = 0 → result'.bytes.bytes 0 3 = (onesUpTo 65536 3).bytes.bytes 0 3) :=
  replace_eq (load_intOf (by decide)) (load_intOf (by decide)) (load_intOf (by decide))
    (by decide) (by decide) (by decide)
    (by
      have found : substitute [1, 1] [1] ([1, 1] ++ [1] : List UInt8) = [1, 1] := by
        rw [substitute_found (by decide), substitute_other (by decide), substitute_nil]
        rfl
      exact (congrArg List.length found).trans_le (by decide)) (by decide)

end Scanning

end Sigil.Stdlib
