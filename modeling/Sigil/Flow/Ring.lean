import Mathlib

/-!
# Ring buffers

The elements of a ring are read from its first slot on, wrapping at the capacity.
-/

namespace Flow.Ring

variable {α : Type*} {buffer : Nat → α} {capacity head count : Nat} {value : α}

/-- The elements in order, the oldest first. -/
def contents (buffer : Nat → α) (capacity head count : Nat) : List α :=
  (List.range count).map fun k => buffer ((head + k) % capacity)

@[simp] theorem contents_zero : contents buffer capacity head 0 = [] := rfl

@[simp] theorem length_contents : (contents buffer capacity head count).length = count := by
  simp [contents]

/-- Slots of a ring that holds no more than its capacity are distinct. -/
theorem slot_ne {j k : Nat} (less : j < k) (room : k < capacity) :
    (head + j) % capacity ≠ (head + k) % capacity := by
  intro same
  have apart : (head + k) - (head + j) = k - j := by omega
  have divides : capacity ∣ (head + k) - (head + j) :=
    (Nat.modEq_iff_dvd' (by omega)).mp same
  rw [apart] at divides
  have := Nat.le_of_dvd (by omega) divides
  omega

/-- A value written after the last element becomes the last. -/
theorem contents_push (room : count < capacity) :
    contents (Function.update buffer ((head + count) % capacity) value) capacity head (count + 1) =
      contents buffer capacity head count ++ [value] := by
  unfold contents
  rw [List.range_succ, List.map_append, List.map_singleton, Function.update_self]
  congr 1
  refine List.map_congr_left fun k earlier => ?_
  exact Function.update_of_ne (slot_ne (List.mem_range.mp earlier) room) _ _

/-- The first element, and what is left when the first slot moves on. -/
theorem contents_pop : contents buffer capacity head (count + 1) =
    buffer (head % capacity) :: contents buffer capacity ((head + 1) % capacity) count := by
  unfold contents
  rw [List.range_succ_eq_map, List.map_cons, List.map_map, Nat.add_zero]
  congr 1
  refine List.map_congr_left fun k _ => ?_
  have slot : (head + (k + 1)) % capacity = ((head + 1) % capacity + k) % capacity := by
    rw [Nat.mod_add_mod]
    congr 1
    omega
  exact congrArg buffer slot

end Flow.Ring
