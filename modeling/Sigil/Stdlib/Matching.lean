import Sigil.Stdlib.Scan

/-!
# Matching a needle

The loop over the characters of a needle. What it finds at a place is a function of the bytes
from there on.
-/

namespace Sigil.Stdlib

open Flow

/-- `match_loop` of `find`, `mloop` of `contains` and `match_delim_loop` of `split`: whether the
needle stands at a place -/
def matchBody {k l : Nat} (haystack : Allocation k) (needle : Allocation l)
    (needle_len pos mp : Register) :
    Option (Register ⊕ Bool) := do
  if ige mp needle_len then return .inr true
  let hay_idx := pos + mp
  let hay_char ← haystack.load 1 hay_idx
  let needle_char ← needle.load 1 mp
  if hay_char = needle_char then return .inl (mp + 1)
  return .inr false

section Matches

/-- What the loop over the needle finds, where it has the bytes of the buffer from a place on. -/
def matchOf : List UInt8 → List UInt8 → Option Bool
  | [], _ => some true
  | _ :: _, [] => none
  | x :: xs, y :: ys => if y = x then matchOf xs ys else some false

variable {xs ys zs : List UInt8}

/-- A match is a prefix. -/
theorem matchOf_true : matchOf xs ys = some true ↔ xs <+: ys := by
  induction xs generalizing ys with
  | nil => simp [matchOf]
  | cons x xs ih =>
      obtain _ | ⟨y, ys⟩ := ys
      · simp [matchOf]
      · rw [matchOf, List.cons_prefix_cons]
        by_cases same : y = x
        · rw [if_pos same, ih]
          simp [same]
        · rw [if_neg same]
          simp [Ne.symm same]

/-- A mismatch is no prefix either way. -/
theorem matchOf_false : matchOf xs ys = some false ↔ ¬ xs <+: ys ∧ ¬ ys <+: xs := by
  induction xs generalizing ys with
  | nil => simp [matchOf]
  | cons x xs ih =>
      obtain _ | ⟨y, ys⟩ := ys
      · simp [matchOf]
      · rw [matchOf, List.cons_prefix_cons, List.cons_prefix_cons]
        by_cases same : y = x
        · rw [if_pos same, ih]
          simp [same]
        · rw [if_neg same]
          simp [same, Ne.symm same]

/-- With text enough a match is decided by the prefix. -/
theorem matchOf_room (le : xs.length ≤ ys.length) : matchOf xs ys = some (decide (xs <+: ys)) := by
  by_cases found : xs <+: ys
  · rw [decide_eq_true found]
    exact matchOf_true.mpr found
  · rw [decide_eq_false found]
    refine matchOf_false.mpr ⟨found, fun other => found ?_⟩
    rw [other.eq_of_length_le le]

/-- A text is searched like the buffer it ends in with a null. -/
theorem matchOf_terminated (nonzero : ∀ x ∈ xs, x ≠ 0) (some_ : xs ≠ []) :
    matchOf xs (ys ++ 0 :: zs) = some (decide (xs <+: ys)) := by
  induction xs generalizing ys with
  | nil => exact absurd rfl some_
  | cons x xs ih =>
      have char := nonzero x List.mem_cons_self
      obtain _ | ⟨y, ys⟩ := ys
      · rw [List.nil_append, matchOf, if_neg char.symm]
        simp
      · rw [List.cons_append, matchOf]
        by_cases same : y = x
        · obtain rfl | more := eq_or_ne xs []
          · simp [matchOf, same]
          · rw [if_pos same, ih (fun x mem => nonzero x (List.mem_cons_of_mem _ mem)) more]
            simp [List.cons_prefix_cons, same]
        · rw [if_neg same]
          simp [List.cons_prefix_cons, Ne.symm same]

end Matches

section Searching

variable {fuel k l n m p : Nat} {haystack : Allocation k} {needle : Allocation l}

/-- The loop of a match, from some place on. -/
theorem matchBody_from (inside : m + n ≤ l) (below : p + m ≤ k) (small : k < 2 ^ 62)
    (small' : l < 2 ^ 62) (enough : n < fuel) :
    exits (matchBody haystack needle (count (m + n)) (count p)) fuel (count m) =
      matchOf (needle.bytes.bytes m n) (haystack.bytes.bytes (p + m) (k - (p + m))) := by
  induction n generalizing m fuel with
  | zero =>
      obtain ⟨fuel, rfl⟩ := Nat.exists_eq_add_one_of_ne_zero (Nat.ne_of_gt enough)
      refine exits_leave ?_
      rw [matchBody, ige_counts (by omega) (by omega), decide_eq_true (by omega)]
      rfl
  | succ n ih =>
      obtain ⟨fuel, rfl⟩ := Nat.exists_eq_add_one_of_ne_zero
        (Nat.ne_of_gt (Nat.zero_lt_of_lt enough))
      have more : ige (count m) (count (m + (n + 1))) = false :=
        ige_counts_before (by omega) (by omega)
      rw [Buffer.bytes_cons]
      obtain ended | room := Nat.eq_or_lt_of_le below
      · have fails : matchBody haystack needle (count (m + (n + 1))) (count p) (count m) =
          none := by
          simp only [matchBody, more, count_add,
            load_char_outside (show k ≤ p + m by omega) (by omega), Bool.false_eq_true, if_false]
          rfl
        rw [exits_fail fails, ended, Nat.sub_self]
        rfl
      · have turn : matchBody haystack needle (count (m + (n + 1))) (count p) (count m) =
            some (if haystack.bytes (p + m) = needle.bytes m then .inl (count (m + 1)) else .inr
              false) := by
          simp only [matchBody, more, count_add, load_char room (by omega),
            load_char (show m < l by omega) (by omega),
            Option.bind_eq_bind, Option.bind_some, charReg_inj, count_succ, Bool.false_eq_true,
              if_false]
          split_ifs <;> rfl
        rw [show k - (p + m) = k - (p + (m + 1)) + 1 by omega, Buffer.bytes_cons, matchOf]
        by_cases same : haystack.bytes (p + m) = needle.bytes m
        · rw [if_pos same] at turn ⊢
          have rest := @ih fuel (m + 1) (by omega) (by omega) (by omega)
          rw [Nat.add_right_comm] at rest
          rw [exits_next turn]
          exact rest
        · rw [if_neg same] at turn ⊢
          exact exits_leave turn

/-- What the match loop finds at a place. -/
theorem matchBody_eq (inside : n ≤ l) (below : p ≤ k) (small : k < 2 ^ 62) (small' : l < 2 ^ 62)
    (enough : n < fuel) :
    exits (matchBody haystack needle (count n) (count p)) fuel 0 =
      matchOf (needle.bytes.bytes 0 n) ((haystack.bytes.bytes 0 k).drop p) := by
  have searched := @matchBody_from fuel k l n 0 p haystack needle (by omega) (by omega) small
    small' enough
  rw [Nat.zero_add, Nat.add_zero, count_zero] at searched
  rw [searched, Buffer.drop_bytes, Nat.zero_add]

/-- A needle that has room is compared with the bytes at its place. -/
theorem matchBody_inside (inside : n ≤ l) (room : p + n ≤ k) (small : k < 2 ^ 62)
    (small' : l < 2 ^ 62) (enough : n < fuel) :
    exits (matchBody haystack needle (count n) (count p)) fuel 0 =
      some (decide (needle.bytes.bytes 0 n = haystack.bytes.bytes p n)) := by
  have searched := @matchBody_from fuel k l n 0 p haystack needle (by omega) (by omega) small
    small' enough
  rw [Nat.zero_add, Nat.add_zero, count_zero] at searched
  rw [searched, matchOf_room (by simp; omega)]
  simp [Buffer.starts_bytes_iff, show n ≤ k - p by omega]

end Searching

end Sigil.Stdlib
