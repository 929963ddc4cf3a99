import Sigil.Stdlib.Scan

/-!
# The behavior `concat`

Two texts behind each other, with a terminator.
-/

namespace Sigil.Stdlib

open Flow

def concat (fuel : Nat) (first second : Allocation 65536) (result : Allocation 131072) :
    Option (Allocation 131072) := do
  let len1 ← getLength fuel first 65536
  let len2 ← getLength fuel second 65536
  let result ← exits (copyBody first 0 len1 0) fuel (0, result)
  let result ← exits (copyBody second 0 len2 len1) fuel (0, result)
  let total_len := len1 + len2
  result.store 0 1 total_len

section Concatenation

variable {fuel : Nat} {first second : Allocation 65536} {result : Allocation 131072}

/-- The two texts and their terminator, where the terminator has room. -/
theorem concat_eq {l m : Nat} (length : (first.bytes.text 65536).length = l)
    (length' : (second.bytes.text 65536).length = m)
    (enough : 65536 < fuel) : concat fuel first second result =
      if l + m < 131072 then some ⟨Function.update (Buffer.copy second.bytes 0
        (Buffer.copy first.bytes 0 result.bytes 0 l) l m) (l + m) 0⟩
      else none := by
  have le : l ≤ 65536 := length ▸ Buffer.length_text_le
  have le' : m ≤ 65536 := length' ▸ Buffer.length_text_le
  have scanned : getLength fuel first 65536 = some (count l) :=
    length ▸ getLength_eq rfl (by decide) (by decide) enough
  have scanned' : getLength fuel second 65536 = some (count m) :=
    length' ▸ getLength_eq rfl (by decide) (by decide) enough
  have copied : exits (copyBody first 0 (count l) 0) fuel (0, result) =
    some ⟨Buffer.copy first.bytes 0 result.bytes 0 l⟩ :=
    exits_copyBody (f := 0) (d := 0) (by omega) (by omega) (by decide) (by decide) (by omega)
  have copied' : exits (copyBody second 0 (count m) (count l)) fuel
    (0, ⟨Buffer.copy first.bytes 0 result.bytes 0 l⟩) =
      some (⟨Buffer.copy second.bytes 0 (Buffer.copy first.bytes 0 result.bytes 0 l) l m⟩ :
        Allocation 131072) :=
    exits_copyBody (f := 0) (by omega) (by omega) (by decide) (by decide) (by omega)
  simp only [concat, scanned, scanned', copied, copied', Option.bind_eq_bind, Option.bind_some,
    count_add]
  by_cases room : l + m < 131072
  · rw [if_pos room, store_char room (by omega)]
    rfl
  · rw [if_neg room, store_char_outside (by omega) (by omega)]

/-- The run ends, and the result starts with both texts and a terminator. -/
def Concatenates (fuel : Nat) (first second : Allocation 65536) (result : Allocation 131072) :
    Prop :=
  ∃ result', concat fuel first second result = some result' ∧
    result'.bytes.bytes 0 ((first.bytes.text 65536).length + (second.bytes.text 65536).length + 1) =
      first.bytes.text 65536 ++ second.bytes.text 65536 ++ [0]

/-- Texts are joined exactly where the terminator has room. -/
theorem concatenates_iff (enough : 65536 < fuel) : Concatenates fuel first second result ↔
    (first.bytes.text 65536).length + (second.bytes.text 65536).length < 131072 := by
  unfold Concatenates
  rw [concat_eq rfl rfl enough]
  constructor
  · rintro ⟨result', joined, -⟩
    by_contra full
    rw [if_neg full] at joined
    cases joined
  · intro room
    rw [if_pos room]
    refine ⟨_, rfl, ?_⟩
    rw [Buffer.bytes_update_last, Buffer.bytes_append, Buffer.bytes_copy_of_outside (by omega),
      Buffer.bytes_copy, Nat.zero_add,
      Buffer.bytes_copy, ← Buffer.text_eq_bytes, ← Buffer.text_eq_bytes]

/-- Three bytes and two. -/
theorem concatenates_iff_short : Concatenates 70000 (onesUpTo 65536 3) (onesUpTo 65536 2)
    ⟨fun _ => 0⟩ ↔
    ((onesUpTo 65536 3).bytes.text 65536).length + ((onesUpTo 65536 2).bytes.text 65536).length
      < 131072 :=
  concatenates_iff (by decide)

/-- The terminator behind two full buffers has no room. -/
theorem concat_full : ¬ ∃ fuel > 65536,
    Concatenates fuel (onesUpTo 65536 65536) (onesUpTo 65536 65536) ⟨fun _ => 0⟩ := by
  rintro ⟨fuel, enough, result', joined, -⟩
  have full := length_onesUpTo (Nat.le_refl 65536)
  rw [concat_eq full full enough, if_neg (by decide)] at joined
  cases joined

end Concatenation

end Sigil.Stdlib
