import Mathlib

/-!
# Events along a trace

`Since event cancel trace` is the past-time operator: some `event` has happened
and no `cancel` after it. It is decided one step at a time from the end of the
trace, which is how an analysis that walks the trace can maintain it.
-/

namespace Flow

variable {α : Type*} {event cancel : α → Prop} {trace : List α} {i : α}

/-- An event happened on the trace and nothing after it cancelled it. -/
def Since (event cancel : α → Prop) (trace : List α) : Prop :=
  ∃ before i after, trace = before ++ i :: after ∧ event i ∧ ∀ j ∈ after, ¬ cancel j

@[simp] theorem not_since_nil : ¬ Since event cancel [] := by
  simp [Since]

/-- The last step of a trace is an event, or leaves an earlier one standing. -/
theorem since_concat_iff :
    Since event cancel (trace ++ [i]) ↔ event i ∨ (¬ cancel i ∧ Since event cancel trace) := by
  constructor
  · rintro ⟨before, j, after, split, happened, kept⟩
    rcases List.eq_nil_or_concat after with rfl | ⟨after, last, rfl⟩
    · obtain ⟨rfl, rfl⟩ := List.append_inj' split rfl |>.imp id List.singleton_inj.mp
      exact .inl happened
    · rw [List.concat_eq_append, ← List.cons_append, ← List.append_assoc] at split
      obtain ⟨rfl, same⟩ := List.append_inj' split rfl
      obtain rfl := List.singleton_inj.mp same
      exact .inr ⟨kept _ (by simp), before, j, after, rfl, happened,
        fun k member => kept k (by simp [member])⟩
  · rintro (happened | ⟨kept, before, j, after, rfl, happened, earlier⟩)
    · exact ⟨trace, i, [], rfl, happened, by simp⟩
    · refine ⟨before, j, after ++ [i], by simp, happened, ?_⟩
      intro k member
      rcases List.mem_append.mp member with inAfter | isLast
      · exact earlier k inAfter
      · rwa [List.mem_singleton.mp isLast]

/-- If an event happened at all, it happened a first time. -/
theorem exists_first (happened : ∃ i ∈ trace, event i) :
    ∃ before i after, trace = before ++ i :: after ∧ event i ∧ ∀ j ∈ before, ¬ event j := by
  induction trace with
  | nil => simp at happened
  | cons i trace ih =>
      by_cases now : event i
      · exact ⟨[], i, trace, rfl, now, by simp⟩
      · obtain ⟨before, j, after, rfl, later, none⟩ := ih (by simpa [now] using happened)
        exact ⟨i :: before, j, after, rfl, later, by simpa [now] using none⟩

/-- If an event happened at all, it happened a last time. -/
theorem since_self (happened : ∃ i ∈ trace, event i) : Since event event trace := by
  induction trace using List.reverseRecOn with
  | nil => simp at happened
  | append_singleton trace i ih =>
      rw [since_concat_iff]
      by_cases now : event i
      · exact .inl now
      · obtain ⟨j, member, earlier⟩ := happened
        rcases List.mem_append.mp member with inTrace | isLast
        · exact .inr ⟨now, ih ⟨j, inTrace, earlier⟩⟩
        · exact absurd (List.mem_singleton.mp isLast ▸ earlier) now

/-- A cancelled event that never happens again does not stand. -/
theorem not_since_of_cancel {before after : List α} (cancelled : cancel i) (differs : ¬ event i)
    (never : ∀ j ∈ after, ¬ event j) : ¬ Since event cancel (before ++ i :: after) := by
  induction after using List.reverseRecOn with
  | nil =>
      rw [since_concat_iff]
      rintro (now | ⟨kept, _⟩)
      · exact differs now
      · exact kept cancelled
  | append_singleton after j ih =>
      rw [← List.cons_append, ← List.append_assoc, since_concat_iff]
      rintro (now | ⟨_, earlier⟩)
      · exact never j (by simp) now
      · exact ih (fun k member => never k (by simp [member])) earlier

/-- Fewer cancellations leave more standing. -/
theorem Since.mono {cancel' : α → Prop} (fewer : ∀ j, cancel' j → cancel j)
    (since : Since event cancel trace) : Since event cancel' trace := by
  obtain ⟨before, i, after, rfl, happened, kept⟩ := since
  exact ⟨before, i, after, rfl, happened, fun j member hit => kept j member (fewer j hit)⟩

end Flow
