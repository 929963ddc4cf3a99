import Sigil.Runtime.Waits

/-!
# Handles of tasks

A handle is a slot of the table, and a slot is used again after its task is reaped. A wait
finds the task of its own SPAWN as long as no later SPAWN has been given the slot.
-/

namespace Sigil.Runtime.Pool

open Flow

variable {ι κ α : Type*} {blank : α} {events : List (PoolEvent ι κ α)} {s s' : Pool ι κ α}
  {e : PoolEvent ι κ α} {stage : Nat → Stage ι κ} {i : ι} {target : Option Nat} {t h : Nat}

/-- The SPAWNs whose handles a caller looks up next. -/
def lookedUp (s : Pool ι κ α) (i : ι) : List (Option Nat) :=
  match s.callers i with
  | .waiting target => [target]
  | .waitingAny targets => targets
  | _ => []

/-- A step of a wait that looks handles up finds their slots empty, or with the tasks of the
SPAWNs that returned them. -/
def Current (s : Pool ι κ α) (e : PoolEvent ι κ α) : Prop :=
  ∀ i, ((∃ target t, e = .block i target t) ∨ (∃ targets, e = .blockAny i targets) ∨
      ∃ target t, e = .reap i target t) →
    ∀ u ∈ s.lookedUp i, ∀ t, s.table (s.handleOf u) = some t → u = some t

/-- A wait has taken a task out of the table. -/
def Reaped (events : List (PoolEvent ι κ α)) (t : Nat) : Prop :=
    ∃ i target, .reap i target t ∈ events

/-- A step of a wait that looks up the handle of a task that was reaped finds the slot empty:
no later SPAWN has been given it. -/
def Fresh (events : List (PoolEvent ι κ α)) (s : Pool ι κ α) (e : PoolEvent ι κ α) : Prop :=
  ∀ i, ((∃ target t, e = .block i target t) ∨ (∃ targets, e = .blockAny i targets) ∨
      ∃ target t, e = .reap i target t) →
    ∀ t, some t ∈ s.lookedUp i → Reaped events t → s.table (s.handle t) = none

/-- Runs in which no task is reaped that another caller is blocked on, and no wait looks up the
handle of a reaped task in a slot that a later SPAWN has been given. -/
inductive OrderlyRun [DecidableEq ι] [DecidableEq κ] (blank : α) :
    List (PoolEvent ι κ α) → Pool ι κ α → Prop
  | nil : OrderlyRun blank [] (init blank)
  | snoc {events : List (PoolEvent ι κ α)} {s s' : Pool ι κ α} {e : PoolEvent ι κ α}
      (prior : OrderlyRun blank events s) (next : Step s e s') (alone : Alone s e)
      (fresh : Fresh events s e) : OrderlyRun blank (events ++ [e]) s'

/-- A step of a wait is about the task of the SPAWN whose handle it was given, and the wait
returns after that task has finished. -/
structure OwnTask (s : Pool ι κ α) (e : PoolEvent ι κ α) : Prop where
  blocks : ∀ i target t, e = .block i target t → target = some t
  scans : ∀ i targets, e = .blockAny i targets →
    ∀ u ∈ targets, ∀ t, s.table (s.handleOf u) = some t → u = some t
  reaps : ∀ i target t, e = .reap i target t →
    target = some t ∧ s.Finished t ∧ s.table (s.handleOf target) = some t
  returns : ∀ i t, e = .missing i (some t) ∨ (∃ t', e = .free i (some t) t') → s.Finished t

/-- Tasks that have not finished are in the table, under the handles their SPAWNs returned. -/
def Present (s : Pool ι κ α) : Prop :=
  ∀ t < s.created, ¬ s.Finished t → s.table (s.handle t) = some t

/-- No entry is there at first. -/
theorem present_init : Present (init blank : Pool ι κ α) := by
  intro t born
  simp [init] at born

/-- A step that leaves the table alone keeps the entries. -/
theorem Present.keep (present : Present s) (table : s'.table = s.table)
    (handle : s'.handle = s.handle)
    (created : s'.created = s.created) (finished : ∀ t, s.Finished t → s'.Finished t) :
      Present s' := by
  intro t born unfinished
  rw [table, handle]
  exact present t (created ▸ born) fun done => unfinished (finished t done)

/-- Clearing the slot of a finished task leaves the others. -/
theorem Present.removed (present : Present s) (entry : s.table h = some t) (done : s.Finished t) :
    ∀ u < s.created, ¬ s.Finished u → (s.removed h).table (s.handle u) = some u := by
  intro u born unfinished
  have kept := present u born unfinished
  have other : s.handle u ≠ h := by
    intro same
    rw [same, entry, Option.some.injEq] at kept
    exact unfinished (kept ▸ done)
  simpa [other] using kept

/-- A new task is in its slot, and the others stay where they were. -/
theorem Seated.table_inserted (seated : Seated s) (work : α) :
    (s.inserted work).table ((s.inserted work).handle s.created) = some s.created ∧
      ∀ t < s.created, s.table (s.handle t) = some t →
        (s.inserted work).table ((s.inserted work).handle t) = some t := by
  refine ⟨by simp, fun t born entry => ?_⟩
  have other : s.handle t ≠ s.slot.1 := by
    intro same
    rw [same, seated.slot_free.2.2.2] at entry
    cases entry
  simpa [Nat.ne_of_lt born, other] using entry

/-- Every step keeps the entries of tasks that are not reaped. -/
theorem Present.step [DecidableEq ι] [DecidableEq κ] (present : Present s) (sane : Sane events s)
    (next : Step s e s') : Present s' := by
  obtain ⟨⟨stage, lives⟩, seated, owned⟩ := sane
  have finished : ∀ t, s.Finished t → s'.Finished t := fun t => lives.stays_finished next
  cases next with
  | @insert i work free =>
      intro t born unfinished
      obtain ⟨new, old⟩ := seated.table_inserted work
      by_cases same : t = s.created
      · subst same
        exact new
      · have before : t < s.created := by
          simp only [call_created, inserted_created] at born
          omega
        exact old t before (present t before fun done => unfinished (finished t done))
  | @reap i target t holds done =>
      intro u born unfinished
      exact Present.removed (s := { s with completed := _ }) present (owned.entry seated holds)
        done u born
        fun done => unfinished (finished u done)
  | @reapAny i target t finds done =>
      obtain ⟨_, _, _, _, _, found⟩ := finds
      intro u born unfinished
      exact Present.removed (s := { s with anyCompleted := _ }) present
        (seated.lookup_iff.mp found) done
        u born fun done => unfinished (finished u done)
  | _ => exact present.keep rfl rfl rfl finished

/-- A caller with a pointer has the task of the SPAWN whose handle it was given. -/
structure Matched (s : Pool ι κ α) : Prop where
  holding : ∀ i target t, s.callers i = .holding target t → target = some t
  reaping : ∀ i target t, s.callers i = .reaping target t → target = some t

/-- Nobody waits at first. -/
theorem matched_init : Matched (init blank : Pool ι κ α) := ⟨by simp [init], by simp [init]⟩

/-- A caller holds the task it waits for. -/
theorem Matched.of_holds (matched : Matched s) (seated : Seated s) (holds : s.Holds i target t)
    (current : ∀ u ∈ s.lookedUp i, ∀ t, s.table (s.handleOf u) = some t → u = some t) :
    target = some t := by
  obtain ⟨waits, found⟩ | ⟨inside, _⟩ := holds
  · exact current target (by simp [lookedUp, waits]) t (seated.lookup_iff.mp found)
  · exact matched.holding i target t inside

/-- A handle that finds a task finds the one it was returned for. -/
theorem Seated.of_finds (seated : Seated s) (finds : s.Finds i target t)
    (current : ∀ u ∈ s.lookedUp i, ∀ t, s.table (s.handleOf u) = some t → u = some t) :
    target = some t := by
  obtain ⟨_, before, after, waits, _, found⟩ := finds
  exact current target (by simp [lookedUp, waits]) t (seated.lookup_iff.mp found)

/-- A caller's own change of phase. -/
theorem Matched.call [DecidableEq ι] {c : Caller} (matched : Matched s)
    (holding : ∀ target t, c = .holding target t → target = some t)
    (reaping : ∀ target t, c = .reaping target t → target = some t) : Matched (s.call i c) := by
  refine ⟨fun j target t holds => ?_, fun j target t reaps => ?_⟩
  · by_cases same : j = i
    · exact holding target t (by simpa [same] using holds)
    · exact matched.holding j target t (by simpa [same] using holds)
  · by_cases same : j = i
    · exact reaping target t (by simpa [same] using reaps)
    · exact matched.reaping j target t (by simpa [same] using reaps)

/-- Every step on current handles keeps the tasks and their handles together. -/
theorem Matched.step [DecidableEq ι] [DecidableEq κ] (matched : Matched s) (seated : Seated s)
    (next : Step s e s') (current : Current s e) : Matched s' := by
  cases next with
  | block holds unfinished =>
      have own := matched.of_holds seated holds (current _ (.inl ⟨_, _, rfl⟩))
      exact Matched.call (s := { s with completed := _ }) ⟨matched.holding, matched.reaping⟩
        (by rintro _ _ ⟨⟩; exact own) (by simp)
  | reap holds done =>
      have own := matched.of_holds seated holds (current _ (.inr (.inr ⟨_, _, rfl⟩)))
      exact Matched.call (s := { s with completed := _, table := _ })
        ⟨matched.holding, matched.reaping⟩
        (by simp) (by rintro _ _ ⟨⟩; exact own)
  | reapAny finds done =>
      have own := seated.of_finds finds (current _ (.inr (.inr ⟨_, _, rfl⟩)))
      exact Matched.call (s := { s with anyCompleted := _, table := _ })
        ⟨matched.holding, matched.reaping⟩
        (by simp) (by rintro _ _ ⟨⟩; exact own)
  | insert | enqueue | wait | waitAny | missing | free =>
      exact Matched.call ⟨matched.holding, matched.reaping⟩ (by simp) (by simp)
  | _ => exact ⟨matched.holding, matched.reaping⟩

/-- Every step of a wait is about its own task. -/
theorem ownTask_of_current [DecidableEq ι] [DecidableEq κ] (sane : Sane events s)
    (present : Present s)
    (matched : Matched s) (next : Step s e s') (current : Current s e) : OwnTask s e := by
  obtain ⟨⟨stage, lives⟩, seated, owned⟩ := sane
  refine ⟨?_, ?_, ?_, ?_⟩
  · rintro i target t rfl
    cases next with
    | block holds => exact matched.of_holds seated holds (current i (.inl ⟨_, _, rfl⟩))
  · rintro i targets rfl u member t entry
    cases next with
    | blockAny waits =>
        exact current i (.inr (.inl ⟨_, rfl⟩)) u (by simpa [lookedUp, waits]) t entry
  · rintro i target t rfl
    have looks := current i (.inr (.inr ⟨_, _, rfl⟩))
    cases next with
    | reap holds done => exact ⟨matched.of_holds seated holds looks, done, owned.entry seated holds⟩
    | reapAny finds done =>
        have own := seated.of_finds finds looks
        obtain ⟨_, _, _, _, _, found⟩ := finds
        exact ⟨own, done, seated.lookup_iff.mp found⟩
  · rintro i t (rfl | ⟨t', rfl⟩)
    · cases next with
      | missing waits absent =>
          by_contra unfinished
          have born := seated.known i t (by simp [waits, Caller.targets])
          have entry := seated.lookup_iff.mpr (present t born unfinished)
          rw [handleOf, entry] at absent
          cases absent
    · cases next with
      | free reaps =>
          obtain rfl := Option.some.inj (matched.reaping i _ _ reaps)
          exact (owned.reaping i _ _ reaps).2.2.1

/-- A task that was not reaped is in the table, under the handle its SPAWN returned. -/
def Kept (events : List (PoolEvent ι κ α)) (s : Pool ι κ α) : Prop :=
  ∀ t < s.created, ¬ Reaped events t → s.table (s.handle t) = some t

/-- No task is reaped at first. -/
theorem kept_init : Kept [] (init blank : Pool ι κ α) := by
  intro t born
  simp [init] at born

/-- A task that is not reaped in the end was not reaped before. -/
theorem not_reaped_of_snoc (whole : ¬ Reaped (events ++ [e]) t) : ¬ Reaped events t := by
  rintro ⟨i, target, member⟩
  exact whole ⟨i, target, List.mem_append_left [e] member⟩

/-- Clearing the slot of a task leaves the slots of the others. -/
theorem Kept.removed (kept : Kept events s) (entry : s.table h = some t) {u : Nat}
    (born : u < s.created) (other : u ≠ t) (unreaped : ¬ Reaped events u) :
    (s.removed h).table (s.handle u) = some u := by
  have here := kept u born unreaped
  have apart : s.handle u ≠ h := by
    intro same
    rw [same, entry] at here
    exact other (Option.some.inj here).symm
  simpa [apart] using here

/-- Every step keeps the entries of the tasks that are not reaped. -/
theorem Kept.step [DecidableEq ι] [DecidableEq κ] (kept : Kept events s) (sane : Sane events s)
    (next : Step s e s') : Kept (events ++ [e]) s' := by
  obtain ⟨_, seated, owned⟩ := sane
  intro u born unreaped
  have before := not_reaped_of_snoc unreaped
  cases next with
  | @insert i work free =>
      obtain ⟨new, old⟩ := seated.table_inserted work
      by_cases same : u = s.created
      · subst same
        exact new
      · have earlier : u < s.created := by
          simp only [call_created, inserted_created] at born
          omega
        exact old u earlier (kept u earlier before)
  | @reap i target t holds done =>
      have other : u ≠ t := fun same => unreaped ⟨i, target, by simp [same]⟩
      exact Kept.removed (s := { s with completed := _ }) kept (owned.entry seated holds) born
        other before
  | @reapAny i target t finds done =>
      obtain ⟨_, _, _, _, _, found⟩ := finds
      have other : u ≠ t := fun same => unreaped ⟨i, target, by simp [same]⟩
      exact Kept.removed (s := { s with anyCompleted := _ }) kept (seated.lookup_iff.mp found)
        born other before
  | _ => exact kept u born before

/-- What a caller looks up is among what it waits for. -/
theorem targets_of_lookedUp {u : Option Nat} (member : u ∈ s.lookedUp i) :
    u ∈ (s.callers i).targets := by
  unfold lookedUp at member
  split at member <;> simp_all [Caller.targets]

/-- A handle of a task that was not reaped finds that task. -/
theorem Kept.current (kept : Kept events s) (seated : Seated s) (fresh : Fresh events s e) :
    Current s e := by
  intro i looks u member t entry
  cases u with
  | none =>
      have found := seated.lookup_iff.mpr entry
      simp [lookup, handleOf] at found
  | some v =>
      by_cases reaped : Reaped events v
      · have empty := fresh i looks v member reaped
        rw [handleOf, empty] at entry
        cases entry
      · have own := kept v (seated.known i v (targets_of_lookedUp member)) reaped
        rw [handleOf, own] at entry
        exact entry

/-- A caller waits for a task, spawns another and waits again on the first handle. -/
def awaitedAgain : List (PoolEvent Nat Nat Nat) :=
  [.insert 0 0 7, .enqueue 0 0, .dequeue 0 0, .start 0 0, .run 0 0 7, .complete 0 0,
    .wait 0 (some 0), .reap 0 (some 0) 0, .free 0 (some 0) 0, .insert 0 1 8, .enqueue 0 1,
    .wait 0 (some 0)]

end Sigil.Runtime.Pool
