import Sigil.Flow.Buffer

/-!
# Counted loops over bounded buffers

A loop tests its condition before each round; its body fails where an access leaves its buffer.
Offsets and words are 64-bit registers.
-/

namespace Flow

section Rounds

variable {σ : Type*} {done : σ → Bool} {body : σ → Option σ} {fuel i n : Nat} {s : σ}

/-- Rounds of the body until the condition holds. -/
def rounds (done : σ → Bool) (body : σ → Option σ) : Nat → σ → Option σ
  | 0, _ => none
  | fuel + 1, s => if done s then some s else body s >>= rounds done body fuel

/-- The loop ends where its condition holds. -/
theorem rounds_done (stop : done s = true) : rounds done body (fuel + 1) s = some s := if_pos stop

/-- Elsewhere it runs the body. -/
theorem rounds_more {s' : σ} (more : done s = false) (step : body s = some s') :
    rounds done body (fuel + 1) s = rounds done body fuel s' := by
  rw [rounds, more, step]
  rfl

/-- What holds of the count before each round holds of the last count at the end. -/
theorem rounds_counted {holds : Nat → σ → Prop} (stop : ∀ s, holds n s → done s = true)
    (step : ∀ i < n, ∀ s, holds i s → done s = false ∧ ∃ s', body s = some s' ∧ holds (i + 1) s')
    (start : holds i s) (le : i ≤ n) (enough : n - i < fuel) :
    ∃ s', rounds done body fuel s = some s' ∧ holds n s' := by
  induction fuel generalizing i s with
  | zero => exact absurd enough (Nat.not_lt_zero _)
  | succ fuel ih =>
      obtain below | rfl := Nat.lt_or_eq_of_le le
      · obtain ⟨more, s', stepped, holds'⟩ := step i below s start
        rw [rounds_more more stepped]
        exact ih holds' below (by omega)
      · exact ⟨s, rounds_done (stop s start), start⟩

/-- Rounds of a body that may end the loop. -/
def roundsUntil (body : σ → Option (Option σ)) : Nat → σ → Option σ
  | 0, _ => none
  | fuel + 1, s => do
      match ← body s with
      | none => some s
      | some s' => roundsUntil body fuel s'

variable {turn : σ → Option (Option σ)}

/-- The same for a loop that its body ends. -/
theorem roundsUntil_counted {holds : Nat → σ → Prop} (stop : ∀ s, holds n s → turn s = some none)
    (step : ∀ i < n, ∀ s, holds i s → ∃ s', turn s = some (some s') ∧ holds (i + 1) s')
    (start : holds i s) (le : i ≤ n) (enough : n - i < fuel) :
    ∃ s', roundsUntil turn fuel s = some s' ∧ holds n s' := by
  induction fuel generalizing i s with
  | zero => exact absurd enough (Nat.not_lt_zero _)
  | succ fuel ih =>
      obtain below | rfl := Nat.lt_or_eq_of_le le
      · obtain ⟨s', stepped, holds'⟩ := step i below s start
        rw [roundsUntil, stepped]
        exact ih holds' below (by omega)
      · rw [roundsUntil, stop s start]
        exact ⟨s, rfl, start⟩

end Rounds

/-- A buffer of a fixed size. -/
structure Allocation (size : Nat) where
  bytes : Buffer

namespace Allocation

variable {size n i : Nat} {a : Allocation size} {off v : BitVec 64}

/-- The signed word in `n` bytes at an offset. -/
def load (a : Allocation size) (n : Nat) (off : BitVec 64) : Option (BitVec 64) :=
  if off.toNat + n ≤ size then some
    ((BitVec.ofNat (8 * n) (a.bytes.load off.toNat n)).signExtend 64)
  else none

/-- The low `n` bytes of a word written at an offset. -/
def store (a : Allocation size) (v : BitVec 64) (n : Nat) (off : BitVec 64) :
    Option (Allocation size) :=
  if off.toNat + n ≤ size then some ⟨a.bytes.store off.toNat v.toNat n⟩ else none

/-- A load inside the buffer. -/
theorem load_inside (inside : off.toNat + n ≤ size) :
    a.load n off = some ((BitVec.ofNat (8 * n) (a.bytes.load off.toNat n)).signExtend 64) :=
      if_pos inside

/-- A store inside the buffer. -/
theorem store_inside (inside : off.toNat + n ≤ size) :
    a.store v n off = some ⟨a.bytes.store off.toNat v.toNat n⟩ := if_pos inside

/-- A store of one byte. -/
theorem store_byte (inside : off.toNat < size) :
    a.store v 1 off = some ⟨Function.update a.bytes off.toNat (UInt8.ofNat v.toNat)⟩ := by
  rw [store_inside inside]
  simp [Buffer.store]

end Allocation

end Flow
