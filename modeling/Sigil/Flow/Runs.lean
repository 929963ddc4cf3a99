import Mathlib

/-!
# Runs of a labelled transition relation

A run lists the events of its steps in order. What holds at the start and is kept by every
step holds of the events so far and the state they lead to, so a law about histories is
proved one step at a time.
-/

namespace Flow

variable {S E : Type*} {step : S → E → S → Prop} {start s t : S} {events later : List E} {e : E}

/-- `Run step start events s`: steps from `start` with these events lead to `s`. -/
inductive Run (step : S → E → S → Prop) (start : S) : List E → S → Prop where
  | nil : Run step start [] start
  | snoc {events : List E} {s t : S} {e : E} (prior : Run step start events s)
      (next : step s e t) : Run step start (events ++ [e]) t

namespace Run

/-- What every step keeps holds of each history with the state it leads to. -/
theorem keeps {I : List E → S → Prop} (first : I [] start)
    (kept : ∀ events s e t, Run step start events s → I events s → step s e t → I (events ++ [e]) t)
    (run : Run step start events s) : I events s := by
  induction run with
  | nil => exact first
  | snoc prior next ih => exact kept _ _ _ _ prior ih next

/-- An invariant of the states alone. -/
theorem invariant {I : S → Prop} (first : I start) (kept : ∀ s e t, I s → step s e t → I t)
    (run : Run step start events s) : I s :=
  run.keeps (I := fun _ s => I s) first fun _ s e t _ holds next => kept s e t holds next

/-- A run goes on. -/
theorem append (first : Run step start events s) (second : Run step s later t) :
    Run step start (events ++ later) t := by
  induction second with
  | nil => simpa using first
  | snoc _ next ih => simpa [List.append_assoc] using ih.snoc next

/-- A step is a run. -/
theorem single (next : step s e t) : Run step s [e] t :=
  Run.snoc .nil next

/-- A run begins with a step. -/
theorem cons (next : step start e s) (rest : Run step s events t) :
    Run step start (e :: events) t :=
  (single next).append rest

/-- A run ends with a step. -/
theorem snoc_iff : Run step start (events ++ [e]) t ↔ ∃ s, Run step start events s ∧ step s e t := by
  constructor
  · intro run
    generalize whole : events ++ [e] = all at run
    cases run with
    | nil => simp at whole
    | snoc prior next =>
        obtain ⟨rfl, same⟩ := List.append_inj' whole rfl
        obtain rfl := List.singleton_inj.mp same
        exact ⟨_, prior, next⟩
  · rintro ⟨s, prior, next⟩
    exact prior.snoc next

/-- A run passes through a state after each part of its history. -/
theorem append_iff : Run step start (events ++ later) t ↔
    ∃ s, Run step start events s ∧ Run step s later t := by
  constructor
  · intro run
    induction later using List.reverseRecOn generalizing t with
    | nil => exact ⟨t, by simpa using run, .nil⟩
    | append_singleton later e ih =>
        rw [← List.append_assoc, snoc_iff] at run
        obtain ⟨s, prior, next⟩ := run
        obtain ⟨m, first, second⟩ := ih prior
        exact ⟨m, first, second.snoc next⟩
  · rintro ⟨s, first, second⟩
    exact first.append second

/-- The step of an event in the middle of a history. -/
theorem at_event (run : Run step start (events ++ e :: later) t) :
    ∃ s s', Run step start events s ∧ step s e s' ∧ Run step s' later t := by
  have cut : events ++ e :: later = (events ++ [e]) ++ later := by simp
  rw [cut, append_iff] at run
  obtain ⟨s', first, second⟩ := run
  obtain ⟨s, prior, next⟩ := snoc_iff.mp first
  exact ⟨s, s', prior, next, second⟩

/-- Steps of one relation that are steps of another on the states a run meets. -/
theorem mono {step' : S → E → S → Prop} {I : S → Prop} (first : I start)
    (kept : ∀ s e t, I s → step s e t → I t)
    (weaker : ∀ s e t, I s → step s e t → step' s e t) (run : Run step start events s) :
    Run step' start events s := by
  induction run with
  | nil => exact .nil
  | snoc prior next ih =>
      exact ih.snoc (weaker _ _ _ (prior.invariant first kept) next)

end Run

end Flow
