import Mathlib

/-!
# Condition variables

The threads blocked on a condition variable, and those that were signalled and have not
taken the lock again. A signal picks one blocked thread if there is any; a broadcast takes
them all; a blocked thread may also leave without a signal.
-/

namespace Flow

/-- Who waits on a condition variable; nobody is both blocked and signalled. -/
structure CondVar (ι : Type*) where
  waiting : Finset ι
  signalled : Finset ι
  apart : Disjoint waiting signalled

namespace CondVar

variable {ι : Type*}

def init : CondVar ι := ⟨∅, ∅, Finset.disjoint_empty_left _⟩

@[simp] theorem waiting_init : (init : CondVar ι).waiting = ∅ := rfl
@[simp] theorem signalled_init : (init : CondVar ι).signalled = ∅ := rfl

variable [DecidableEq ι] {c c' : CondVar ι} {i j : ι}

/-- A thread releases the lock and blocks. -/
def wait (c : CondVar ι) (i : ι) : CondVar ι where
  waiting := insert i c.waiting
  signalled := c.signalled.erase i
  apart := by
    rw [Finset.disjoint_insert_left]
    exact ⟨Finset.notMem_erase i _, c.apart.mono_right (Finset.erase_subset i _)⟩

/-- A thread takes the lock again, or wakes up unasked. -/
def leave (c : CondVar ι) (i : ι) : CondVar ι where
  waiting := c.waiting.erase i
  signalled := c.signalled.erase i
  apart := c.apart.mono (Finset.erase_subset i _) (Finset.erase_subset i _)

/-- One thread is signalled. -/
def wake (c : CondVar ι) (i : ι) : CondVar ι where
  waiting := c.waiting.erase i
  signalled := insert i c.signalled
  apart := by
    rw [Finset.disjoint_insert_right]
    exact ⟨Finset.notMem_erase i _, c.apart.mono_left (Finset.erase_subset i _)⟩

/-- Every blocked thread is signalled. -/
def broadcast (c : CondVar ι) : CondVar ι where
  waiting := ∅
  signalled := c.waiting ∪ c.signalled
  apart := Finset.disjoint_empty_left _

/-- A signal wakes one of the blocked threads, and does nothing when there is none. -/
def Signals (c c' : CondVar ι) : Prop :=
  (c.waiting = ∅ ∧ c' = c) ∨ ∃ i ∈ c.waiting, c' = c.wake i

@[simp] theorem waiting_wait : (c.wait i).waiting = insert i c.waiting := rfl
@[simp] theorem signalled_wait : (c.wait i).signalled = c.signalled.erase i := rfl
@[simp] theorem waiting_leave : (c.leave i).waiting = c.waiting.erase i := rfl
@[simp] theorem signalled_leave : (c.leave i).signalled = c.signalled.erase i := rfl
@[simp] theorem waiting_wake : (c.wake i).waiting = c.waiting.erase i := rfl
@[simp] theorem signalled_wake : (c.wake i).signalled = insert i c.signalled := rfl
@[simp] theorem waiting_broadcast : c.broadcast.waiting = ∅ := rfl
@[simp] theorem signalled_broadcast : c.broadcast.signalled = c.waiting ∪ c.signalled := rfl

/-- A thread that wakes up unasked was not signalled. -/
theorem signalled_leave_of_waiting (blocked : i ∈ c.waiting) : (c.leave i).signalled = c.signalled :=
  Finset.erase_eq_of_notMem (Finset.disjoint_left.mp c.apart blocked)

/-- A signal wakes exactly one thread while somebody is blocked. -/
theorem Signals.card (signals : Signals c c') (blocked : c'.waiting.Nonempty) :
    c.waiting.Nonempty ∧ c'.signalled.card = c.signalled.card + 1 := by
  obtain ⟨none, rfl⟩ | ⟨i, waits, rfl⟩ := signals
  · rw [none] at blocked
    exact absurd blocked Finset.not_nonempty_empty
  · exact ⟨⟨i, waits⟩, Finset.card_insert_of_notMem (Finset.disjoint_left.mp c.apart waits)⟩

/-- One thread less at most has still to take the lock when one takes it. -/
theorem card_leave_add_one : c.signalled.card ≤ (c.leave i).signalled.card + 1 := by
  have := Finset.pred_card_le_card_erase (s := c.signalled) (a := i)
  simp only [signalled_leave]
  omega

end CondVar

end Flow
