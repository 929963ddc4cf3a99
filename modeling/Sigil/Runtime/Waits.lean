import Sigil.Runtime.Lifecycle

/-!
# Waiting for tasks

`sigil_wait` keeps its pointer to a task while it is blocked, and whoever finds a task finished
clears its slot and frees it. Pointers stay good as long as no task is reaped while another
caller is blocked with a pointer to it.
-/

namespace Sigil.Runtime.Pool

open Flow

variable {ι κ α : Type*} {blank : α} {events : List (PoolEvent ι κ α)} {s s' : Pool ι κ α}
  {e : PoolEvent ι κ α} {stage : Nat → Stage ι κ} {i : ι} {target : Option Nat} {t h : Nat}

/-- A task some part of the code has to bring further. -/
def Busy (s : Pool ι κ α) (t : Nat) : Prop :=
  (∃ i, s.callers i = .spawning t) ∨ t ∈ s.queue ∨
    ∃ w, s.workers w = .got t ∨ s.workers w = .running t ∨ s.workers w = .ran t

/-- A task in the hands of a worker is created and not finished. -/
theorem Lives.busy (lives : Lives events s stage) (busy : s.Busy t) :
    ¬ s.Finished t ∧ t < s.created := by
  have apart : ∀ {x : Stage ι κ}, s.At t x → x ≠ .done → x ≠ .unborn →
      ¬ s.Finished t ∧ t < s.created := by
    intro x here unfinished born
    have old := (lives.place t x).mp here
    refine ⟨fun finished => unfinished ?_, Nat.lt_of_not_le fun unborn => born ?_⟩
    · exact old.symm.trans ((lives.place t .done).mp finished)
    · exact old.symm.trans ((lives.place t .unborn).mp unborn)
  obtain ⟨i, spawns⟩ | queued | ⟨w, got | running | ran⟩ := busy
  · exact apart (x := .spawning i) spawns (by simp) (by simp)
  · exact apart (x := .queued) queued (by simp) (by simp)
  · exact apart (x := .got w) got (by simp) (by simp)
  · exact apart (x := .running w) running (by simp) (by simp)
  · exact apart (x := .ran w) ran (by simp) (by simp)

/-- Only created tasks are finished. -/
theorem Lives.born_of_finished (lives : Lives events s stage) (finished : s.Finished t) :
    t < s.created := by
  refine Nat.lt_of_not_le fun unborn => ?_
  have done := (lives.place t .done).mp finished
  rw [(lives.place t .unborn).mp unborn] at done
  cases done

/-- A finished task stays finished. -/
theorem Lives.stays_finished [DecidableEq ι] [DecidableEq κ] (lives : Lives events s stage)
    (next : Step s e s') (finished : s.Finished t) : s'.Finished t := by
  cases next with
  | insert work free =>
      have other := Nat.ne_of_lt (lives.born_of_finished finished)
      simpa [Finished, other] using finished
  | @start w u got =>
      have busy := (lives.busy (.inr (.inr ⟨w, .inl got⟩))).1
      have other : t ≠ u := by
        rintro rfl
        exact busy finished
      simpa [Finished, other] using finished
  | @complete w u ran =>
      by_cases same : t = u
      · simp [Finished, same, TaskStatus.finished]
      · simpa [Finished, same] using finished
  | _ => exact finished

/-- The table: every entry is in the slot its SPAWN was told, and handles in use were told. -/
structure Seated (s : Pool ι κ α) : Prop where
  positive : 0 < s.capacity
  seat : ∀ h t, s.table h = some t → 0 < h ∧ h < s.capacity ∧ s.handle t = h ∧ t < s.created
  known : ∀ i t, some t ∈ (s.callers i).targets → t < s.created

/-- A handle is looked up in its own slot. -/
theorem Seated.lookup_iff (seated : Seated s) : s.lookup h = some t ↔ s.table h = some t := by
  unfold lookup
  constructor
  · intro found
    split at found
    · exact found
    · cases found
  · intro entry
    obtain ⟨positive, inside, _, _⟩ := seated.seat h t entry
    rw [if_pos ⟨positive, inside⟩, entry]

/-- The slot of a new task was free, and lies in the table it leaves. -/
theorem Seated.slot_free (seated : Seated s) : 0 < s.slot.1 ∧ s.slot.1 < s.slot.2 ∧
    s.capacity ≤ s.slot.2 ∧ s.table s.slot.1 = none := by
  unfold slot
  have positive := seated.positive
  split
  next i found =>
    have member := List.mem_of_find?_eq_some found
    rw [List.mem_range'_1] at member
    have none := List.find?_some found
    exact ⟨by omega, by simp only; omega, Nat.le_refl _, by simpa using none⟩
  next full =>
    refine ⟨positive, by simp only; omega, by simp only; omega, ?_⟩
    -- slots past the capacity were never used
    cases entry : s.table s.capacity with
    | none => rfl
    | some t => exact absurd (seated.seat _ t entry).2.1 (Nat.lt_irrefl _)

/-- The table is empty at first. -/
theorem seated_init : Seated (init blank : Pool ι κ α) where
  positive := by simp [init, initialTableSize]
  seat := by simp [init]
  known := by simp [init, Caller.targets]

/-- What a step leaves of the table, and whom the callers wait for. -/
theorem Seated.keep (seated : Seated s) (capacity : s'.capacity = s.capacity)
    (table : ∀ h t, s'.table h = some t → s.table h = some t) (handle : s'.handle = s.handle)
    (created : s'.created = s.created)
    (known : ∀ i t, some t ∈ (s'.callers i).targets →
      some t ∈ (s.callers i).targets ∨ t < s.created) : Seated s' where
  positive := capacity ▸ seated.positive
  seat h t entry := by
    rw [capacity, handle, created]
    exact seated.seat h t (table h t entry)
  known i t member := by
    rw [created]
    exact (known i t member).elim (seated.known i t) id

/-- A caller that holds a task waits for it alone. -/
theorem Holds.targets (holds : s.Holds i target t) : (s.callers i).targets = [target] := by
  obtain ⟨waits, _⟩ | ⟨inside, _⟩ := holds
  · rw [waits]; rfl
  · rw [inside]; rfl

/-- What a caller finds is among what it waits for. -/
theorem Finds.target_mem (finds : s.Finds i target t) : target ∈ (s.callers i).targets := by
  obtain ⟨_, before, after, waits, _⟩ := finds
  simp [waits, Caller.targets]

/-- Whom a caller waits for after a change of its own phase. -/
theorem known_call [DecidableEq ι] {c : Caller}
    (fresh : ∀ t, some t ∈ c.targets → some t ∈ (s.callers i).targets ∨ t < s.created) :
    ∀ j t, some t ∈ ((s.call i c).callers j).targets →
      some t ∈ (s.callers j).targets ∨ t < s.created := by
  intro j t member
  by_cases same : j = i
  · subst same
    rw [call_callers, Function.update_self] at member
    exact fresh t member
  · rw [call_callers, Function.update_of_ne same] at member
    exact .inl member

/-- Removing a handle leaves the other entries. -/
theorem table_removed {h' : Nat} (entry : (s.removed h).table h' = some t) :
    s.table h' = some t ∧ h' ≠ h := by
  by_cases same : h' = h
  · simp [same] at entry
  · exact ⟨by simpa [same] using entry, same⟩

/-- Every step keeps the handles in their slots. -/
theorem Seated.step [DecidableEq ι] [DecidableEq κ] (seated : Seated s) (next : Step s e s') :
    Seated s' := by
  cases next with
  | @insert i work free =>
      obtain ⟨positive, inside, larger, free⟩ := seated.slot_free
      refine ⟨Nat.lt_of_lt_of_le seated.positive larger, fun h t entry => ?_, fun j t member => ?_⟩
      · simp only [call_table, inserted_table, call_capacity, inserted_capacity, call_handle,
          inserted_handle, call_created, inserted_created] at entry ⊢
        by_cases new : h = s.slot.1
        · subst new
          obtain rfl : s.created = t := by simpa using entry
          exact ⟨positive, inside, by simp, Nat.lt_succ_self _⟩
        · rw [Function.update_of_ne new] at entry
          obtain ⟨above, below, told, born⟩ := seated.seat h t entry
          rw [Function.update_of_ne (Nat.ne_of_lt born)]
          exact ⟨above, by omega, told, by omega⟩
      · by_cases same : j = i
        · simp [same, Caller.targets] at member
        · have old := seated.known j t (by simpa [same] using member)
          simp only [call_created, inserted_created]
          omega
  | enqueue | missing | free =>
      exact seated.keep rfl (fun _ _ => id) rfl rfl (known_call (by simp [Caller.targets]))
  | wait free known =>
      refine seated.keep rfl (fun _ _ => id) rfl rfl (known_call fun t member => .inr ?_)
      exact (known t (by simpa [Caller.targets, eq_comm] using member)).1
  | waitAny free known =>
      refine seated.keep rfl (fun _ _ => id) rfl rfl (known_call fun t member => .inr ?_)
      exact (known t (by simpa [Caller.targets] using member)).1
  | block holds =>
      exact seated.keep rfl (fun _ _ => id) rfl rfl (known_call fun t member =>
        .inl (holds.targets ▸ member))
  | reap holds =>
      exact seated.keep rfl (fun _ _ entry => (table_removed entry).1) rfl rfl
        (known_call fun t member => .inl (holds.targets ▸ member))
  | reapAny finds =>
      refine seated.keep rfl (fun _ _ entry => (table_removed entry).1) rfl rfl
        (known_call fun t member => .inl ?_)
      obtain rfl : some t = _ := by simpa [Caller.targets] using member
      exact finds.target_mem
  | spawnFails | workerWaits | workerWakes | blockAny | wake | wakeAny | dequeue | start | run
  | complete =>
      exact seated.keep rfl (fun _ _ => id) rfl rfl fun _ _ => .inl

/-- A task is reaped only while no other caller is blocked with a pointer to it. -/
def Alone (s : Pool ι κ α) (e : PoolEvent ι κ α) : Prop :=
  ∀ i target t, e = .reap i target t → ∀ j target', j ≠ i → s.callers j ≠ .holding target' t

/-- Pointers are to tasks of the table, and a task that left it has one owner until it is
freed, and none afterwards. -/
structure Owned (s : Pool ι κ α) : Prop where
  holding : ∀ i target t, s.callers i = .holding target t → s.table (s.handleOf target) = some t
  reaping : ∀ i target t, s.callers i = .reaping target t →
    (∀ h, s.table h ≠ some t) ∧ t ∉ s.freed ∧ s.Finished t ∧
      ∀ j target', s.callers j = .reaping target' t → j = i
  gone : ∀ t ∈ s.freed, (∀ h, s.table h ≠ some t) ∧ s.Finished t

/-- No task is held at first. -/
theorem owned_init : Owned (init blank : Pool ι κ α) :=
    ⟨by simp [init], by simp [init], by simp [init]⟩

/-- A step in which no caller comes to hold or to reap a task, and the table keeps the tasks
that are held. -/
theorem Owned.quiet (owned : Owned s) (freed : s'.freed = s.freed)
    (finished : ∀ t, s.Finished t → s'.Finished t) (table : s'.table = s.table)
    (handle : s'.handle = s.handle)
    (holding : ∀ j target t, s'.callers j = .holding target t → s.callers j = .holding target t)
    (reaping : ∀ j target t, s'.callers j = .reaping target t → s.callers j = .reaping target t) :
    Owned s' where
  holding j target t holds := by
    have same : s'.handleOf target = s.handleOf target := by
      cases target <;> simp [handleOf, handle]
    rw [table, same]
    exact owned.holding j target t (holding j target t holds)
  reaping j target t reaps := by
    obtain ⟨absent, unfreed, done, unique⟩ := owned.reaping j target t (reaping j target t reaps)
    rw [table, freed]
    exact ⟨absent, unfreed, finished t done, fun k target' other =>
      unique k target' (reaping _ _ _ other)⟩
  gone t member := by
    rw [freed] at member
    rw [table]
    exact ⟨(owned.gone t member).1, finished t (owned.gone t member).2⟩

/-- A caller takes on a phase that has no pointer. -/
theorem callers_call [DecidableEq ι] {c d : Caller} {j : ι} (other : c ≠ d)
    (after : (s.call i c).callers j = d) : s.callers j = d := by
  by_cases same : j = i
  · subst same
    rw [call_callers, Function.update_self] at after
    exact absurd after other
  · simpa [same] using after

/-- A task that is held has its entry. -/
theorem Owned.entry (owned : Owned s) (seated : Seated s) (holds : s.Holds i target t) :
    s.table (s.handleOf target) = some t := by
  obtain ⟨_, found⟩ | ⟨inside, _⟩ := holds
  · exact seated.lookup_iff.mp found
  · exact owned.holding i target t inside

/-- No entry belongs to a freed task. -/
theorem Owned.in_table_not_freed (owned : Owned s) (entry : s.table h = some t) : t ∉ s.freed :=
  fun member => (owned.gone t member).1 h entry

/-- A finished task of the table is reaped by a caller, and nobody else points to it. -/
theorem Owned.reap [DecidableEq ι] (owned : Owned s) (seated : Seated s)
    (entry : s.table (s.handleOf target) = some t) (finished : s.Finished t)
    (alone : ∀ j target', j ≠ i → s.callers j ≠ .holding target' t)
    {completed : Nat → CondVar ι} {anyCompleted : CondVar ι} :
    Owned (({ s with completed, anyCompleted }.removed (s.handleOf target)).call i
      (.reaping target t)) := by
  have others : ∀ {j c}, j ≠ i →
      (({ s with completed, anyCompleted }.removed (s.handleOf target)).call i
        (.reaping target t)).callers j = c →
      s.callers j = c := by
    intro j c other after
    simpa [other] using after
  have gone : ∀ h, (s.removed (s.handleOf target)).table h ≠ some t := by
    intro h' left
    obtain ⟨before, other⟩ := table_removed left
    have here := (seated.seat _ t entry).2.2.1
    exact other ((seated.seat h' t before).2.2.1.symm.trans here)
  refine ⟨fun j target' t' holds => ?_, fun j target' t' reaps => ?_, fun t' member => ?_⟩
  · have mine : j ≠ i := by
      rintro rfl
      simp at holds
    have before := others mine holds
    have kept := owned.holding j target' t' before
    have slots : s.handleOf target' ≠ s.handleOf target := fun same => by
      rw [same, entry, Option.some.injEq] at kept
      exact alone j target' mine (kept ▸ before)
    exact (Function.update_of_ne slots _ _).trans kept
  · by_cases mine : j = i
    · subst mine
      obtain ⟨rfl, rfl⟩ : target = target' ∧ t = t' := by simpa using reaps
      refine ⟨gone, owned.in_table_not_freed entry, finished, fun k target' other => ?_⟩
      by_contra apart
      exact (owned.reaping k target' t (others apart other)).1 _ entry
    · obtain ⟨absent, unfreed, done, unique⟩ := owned.reaping j target' t' (others mine reaps)
      refine ⟨fun h' left => absent h' (table_removed left).1, unfreed, done,
        fun k target'' other => ?_⟩
      by_cases here : k = i
      · subst here
        obtain ⟨rfl, rfl⟩ : target = target'' ∧ t = t' := by simpa using other
        exact absurd entry (absent _)
      · exact unique k target'' (others here other)
  · obtain ⟨absent, done⟩ := owned.gone t' member
    exact ⟨fun h' left => absent h' (table_removed left).1, done⟩

/-- A spawned task has its entry. -/
theorem Owned.spawn [DecidableEq ι] (owned : Owned s) (seated : Seated s)
    (lives : Lives events s stage)
    (work : α) : Owned ((s.inserted work).call i (.spawning s.created)) := by
  have free := seated.slot_free.2.2.2
  have occupied : ∀ {h t}, s.table h = some t →
      ((s.inserted work).call i (.spawning s.created)).table h = some t := fun {h t} entry => by
    have other : h ≠ s.slot.1 := by
      rintro rfl
      rw [free] at entry
      cases entry
    simpa [other] using entry
  have absent : ∀ {t}, s.Finished t → (∀ h, s.table h ≠ some t) →
      ∀ h, ((s.inserted work).call i (.spawning s.created)).table h ≠ some t := by
    intro t done none h entry
    by_cases here : h = s.slot.1
    · obtain rfl : s.created = t := by simpa [here] using entry
      exact Nat.lt_irrefl _ (lives.born_of_finished done)
    · exact none h (by simpa [here] using entry)
  have still : ∀ t, s.Finished t → ((s.inserted work).call i (.spawning s.created)).Finished t := by
    intro t done
    have other := Nat.ne_of_lt (lives.born_of_finished done)
    simpa [Finished, other] using done
  refine ⟨fun j target t holds => ?_, fun j target t reaps => ?_, fun t member => ?_⟩
  · have before : s.callers j = .holding target t := callers_call (by simp) holds
    have told : ((s.inserted work).call i (.spawning s.created)).handleOf target =
      s.handleOf target := by
      cases target with
      | none => rfl
      | some u =>
          have known := seated.known j u (by simp [before, Caller.targets])
          simp [handleOf, Nat.ne_of_lt known]
    rw [told]
    exact occupied (owned.holding j target t before)
  · obtain ⟨none, unfreed, done, unique⟩ := owned.reaping j target t (callers_call (by simp) reaps)
    exact ⟨absent done none, unfreed, still t done,
      fun k target' other => unique k target' (callers_call (by simp) other)⟩
  · obtain ⟨none, done⟩ := owned.gone t member
    exact ⟨absent done none, still t done⟩

/-- A caller that blocks keeps the entry. -/
theorem Owned.block [DecidableEq ι] (owned : Owned s) (seated : Seated s)
    (holds : s.Holds i target t)
    {completed : Nat → CondVar ι} : Owned ({ s with completed }.call i (.holding target t)) := by
  have entry := owned.entry seated holds
  have kept : Owned ({ s with completed } : Pool ι κ α) :=
    ⟨owned.holding, owned.reaping, owned.gone⟩
  refine ⟨fun j target' t' holds' => ?_, fun j target' t' reaps => ?_, owned.gone⟩
  · by_cases mine : j = i
    · subst mine
      obtain ⟨rfl, rfl⟩ : target = target' ∧ t = t' := by simpa using holds'
      exact entry
    · exact owned.holding j target' t' (by simpa [mine] using holds')
  · obtain ⟨absent, unfreed, done, unique⟩ :=
      kept.reaping j target' t' (callers_call (by simp) reaps)
    exact ⟨absent, unfreed, done, fun k target'' other =>
      unique k target'' (callers_call (by simp) other)⟩

/-- A reaped task is freed by the caller that reaps it. -/
theorem Owned.release [DecidableEq ι] (owned : Owned s) (reaps : s.callers i = .reaping target t) :
    Owned ({ s with freed := insert t s.freed }.call i .idle) := by
  obtain ⟨absent, unfreed, done, unique⟩ := owned.reaping i target t reaps
  refine ⟨fun j target' t' holds => owned.holding j target' t' (callers_call (by simp) holds),
    fun j target' t' other => ?_, fun t' member => ?_⟩
  · have apart : j ≠ i := by
      rintro rfl
      simp at other
    have before : s.callers j = .reaping target' t' := by simpa [apart] using other
    obtain ⟨absent', unfreed', done', unique'⟩ := owned.reaping j target' t' before
    refine ⟨absent', ?_, done', fun k target'' later =>
      unique' k target'' (callers_call (by simp) later)⟩
    simp only [call_freed, Finset.mem_insert, not_or]
    refine ⟨?_, unfreed'⟩
    rintro rfl
    exact apart (unique j target' before)
  · obtain rfl | before := Finset.mem_insert.mp member
    · exact ⟨absent, done⟩
    · exact owned.gone t' before

/-- Every step of callers that wait alone keeps what is owned. -/
theorem Owned.step [DecidableEq ι] [DecidableEq κ] (owned : Owned s) (seated : Seated s)
    (lives : Lives events s stage) (next : Step s e s') (alone : Alone s e) : Owned s' := by
  have finished : ∀ t, s.Finished t → s'.Finished t := fun t => lives.stays_finished next
  cases next with
  | insert work free => exact owned.spawn seated lives work
  | block holds unfinished => exact owned.block seated holds
  | reap holds done => exact owned.reap seated (owned.entry seated holds) done (alone _ _ _ rfl)
  | reapAny finds done =>
      obtain ⟨_, before, after, _, _, found⟩ := finds
      exact owned.reap seated (seated.lookup_iff.mp found) done (alone _ _ _ rfl)
  | free reaps => exact owned.release reaps
  | enqueue | wait | waitAny | missing =>
      exact owned.quiet rfl finished rfl rfl (fun _ _ _ => callers_call (by simp))
        fun _ _ _ => callers_call (by simp)
  | spawnFails | workerWaits | workerWakes | blockAny | wake | wakeAny | dequeue | start | run
  | complete => exact owned.quiet rfl finished rfl rfl (fun _ _ _ => id) fun _ _ _ => id

/-- The invariants of the runtime. -/
structure Sane (events : List (PoolEvent ι κ α)) (s : Pool ι κ α) : Prop where
  lives : ∃ stage, Lives events s stage
  seated : Seated s
  owned : Owned s

/-- The pool is sane at first. -/
theorem sane_init : Sane [] (init blank : Pool ι κ α) := ⟨⟨_, lives_init⟩, seated_init, owned_init⟩

/-- Every step of callers that wait alone keeps the pool sane. -/
theorem Sane.step [DecidableEq ι] [DecidableEq κ] (sane : Sane events s) (next : Step s e s')
    (alone : Alone s e) : Sane (events ++ [e]) s' := by
  obtain ⟨⟨stage, lives⟩, seated, owned⟩ := sane
  exact ⟨lives.step next, seated.step next, owned.step seated lives next alone⟩

/-- The records a step touches are allocated. -/
theorem Sane.touched [DecidableEq ι] [DecidableEq κ] (sane : Sane events s) (next : Step s e s') :
    ∀ t ∈ s.touched e, t ∉ s.freed := by
  obtain ⟨⟨stage, lives⟩, seated, owned⟩ := sane
  have busy : ∀ {t}, s.Busy t → t ∉ s.freed := fun work member =>
    (lives.busy work).1 (owned.gone _ member).2
  have listed : ∀ {targets : List (Option Nat)},
      ∀ t ∈ targets.filterMap fun u => s.lookup (s.handleOf u), t ∉ s.freed := by
    intro targets t member
    obtain ⟨u, _, found⟩ := List.mem_filterMap.mp member
    exact owned.in_table_not_freed (seated.lookup_iff.mp found)
  have one : ∀ {t}, t ∉ s.freed → ∀ u ∈ [t], u ∉ s.freed := by
    intro t unfreed u member
    exact List.mem_singleton.mp member ▸ unfreed
  cases next with
  | @enqueue i t _ spawns signals =>
      intro u member
      obtain rfl | last := List.mem_cons.mp member
      · exact busy (.inl ⟨i, spawns⟩)
      · exact busy (.inr (.inl (List.mem_of_getLast? (Option.mem_toList.mp last))))
  | dequeue idle awake first => exact one (busy (.inr (.inl (by simp [first]))))
  | @start w t got => exact one (busy (.inr (.inr ⟨w, .inl got⟩)))
  | @run w t running => exact one (busy (.inr (.inr ⟨w, .inr (.inl running)⟩)))
  | @complete w t ran => exact one (busy (.inr (.inr ⟨w, .inr (.inr ran)⟩)))
  | block holds => exact one (owned.in_table_not_freed (owned.entry seated holds))
  | blockAny => exact listed
  | @reap i target t holds done =>
      unfold Pool.touched
      obtain ⟨waits, _⟩ | ⟨inside, _⟩ := id holds
      · simp only [waits]
        exact one (owned.in_table_not_freed (owned.entry seated holds))
      · simp only [inside]
        exact one (owned.in_table_not_freed (owned.entry seated holds))
  | reapAny finds =>
      obtain ⟨_, before, after, waits, _⟩ := finds
      unfold Pool.touched
      simp only [waits]
      exact listed
  | @free i target t reaps => exact one (owned.reaping i target t reaps).2.1
  | _ => simp [Pool.touched]

/-- While no task is reaped that another caller of `sigil_wait` is blocked on, no step touches
a record that was freed, and none is freed twice. -/
theorem untouched_of_alone [DecidableEq ι] [DecidableEq κ]
    (run : Run (fun s e s' => Step s e s' ∧ Alone s e) (init blank : Pool ι κ α) events s)
    (next : Step s e s') : ∀ t ∈ s.touched e, t ∉ s.freed := by
  have sane : Sane events s := run.keeps sane_init fun _ _ _ _ _ sane next =>
    sane.step next.1 next.2
  exact sane.touched next

/-- Two tasks of one caller, the first of which has run; the caller waits for it, another one for
the second. -/
def awaitedBoth : List (PoolEvent Nat Nat Nat) :=
  [.insert 0 0 7, .enqueue 0 0, .insert 0 1 8, .enqueue 0 1, .dequeue 0 0, .start 0 0, .run 0 0 7,
    .complete 0 0, .wait 1 (some 1), .wait 0 (some 0)]

/-- The task of the first wait is freed once. -/
theorem untouched_of_alone_awaitedBoth : ∃ s s' : Pool Nat Nat Nat,
    Run Step (init 0) (awaitedBoth ++ [.reap 0 (some 0) 0]) s ∧ Step s (.free 0 (some 0) 0) s' ∧
      0 ∉ s.freed := by
  have run : ∃ s, Run (fun s e s' => Step s e s' ∧ Alone s e) (init 0 : Pool Nat Nat Nat)
      (awaitedBoth ++ [.reap 0 (some 0) 0]) s ∧ s.callers 0 = .reaping (some 0) 0 := by
    refine ⟨_, .cons ⟨.insert 7 rfl, by simp [Alone]⟩
      (.cons ⟨.enqueue rfl (.inl ⟨rfl, rfl⟩), by simp [Alone]⟩
      (.cons ⟨.insert 8 rfl, by simp [Alone]⟩
      (.cons ⟨.enqueue rfl (.inl ⟨rfl, rfl⟩), by simp [Alone]⟩
      (.cons ⟨.dequeue rfl (by decide) rfl, by simp [Alone]⟩
      (.cons ⟨.start rfl, by simp [Alone]⟩
      (.cons ⟨.run rfl, by simp [Alone]⟩
      (.cons ⟨.complete rfl, by simp [Alone]⟩
      (.cons ⟨.wait rfl ?_, by simp [Alone]⟩
      (.cons ⟨.wait rfl ?_, by simp [Alone]⟩
      (.single ⟨.reap (.inl ⟨rfl, rfl⟩) rfl, ?_⟩)))))))))), rfl⟩
    · rintro t ⟨⟩
      refine ⟨by decide, fun i => ?_⟩
      by_cases here : i = 0 <;> simp [here, init]
    · rintro t ⟨⟩
      refine ⟨by decide, fun i => ?_⟩
      by_cases second : i = 1
      · simp [second]
      · by_cases first : i = 0 <;> simp [init, *]
    · rintro i target t ⟨⟩ j target' other
      by_cases second : j = 1 <;> simp [init, *]
  obtain ⟨s, run, reaps⟩ := run
  exact ⟨s, _, run.mono (I := fun _ => True) trivial (fun _ _ _ _ _ => trivial)
    fun _ _ _ _ next => next.1, .free reaps,
      untouched_of_alone run (.free reaps) 0 (by simp [touched])⟩

/-- Two callers wait for one task; the first to run after it has finished frees it. -/
def awaitedTwice : List (PoolEvent Nat Nat Nat) :=
  [.insert 0 0 7, .enqueue 0 0, .wait 0 (some 0), .block 0 (some 0) 0, .wait 1 (some 0),
    .block 1 (some 0) 0, .dequeue 0 0, .start 0 0, .run 0 0 7, .complete 0 0, .reap 0 (some 0) 0,
    .free 0 (some 0) 0]

/-- The second of two waiters touches the freed record. -/
theorem awaitedTwice_touches_freed : ∃ s s' : Pool Nat Nat Nat, Run Step (init 0) awaitedTwice s ∧
    Step s (.reap 1 (some 0) 0) s' ∧ 0 ∈ s.touched (.reap 1 (some 0) 0) ∧ 0 ∈ s.freed := by
  refine ⟨_, _, .cons (.insert 7 rfl)
      (.cons (.enqueue rfl (.inl ⟨rfl, rfl⟩))
      (.cons (.wait rfl ?_)
      (.cons (.block (.inl ⟨rfl, rfl⟩) (by decide))
      (.cons (.wait rfl ?_)
      (.cons (.block (.inl ⟨rfl, rfl⟩) (by decide))
      (.cons (.dequeue rfl (by decide) rfl)
      (.cons (.start rfl)
      (.cons (.run rfl)
      (.cons (.complete rfl)
      (.cons (.reap (.inr ⟨rfl, by decide⟩) rfl)
      (.single (.free rfl)))))))))))), .reap (.inr ⟨rfl, by decide⟩) rfl, by decide, by decide⟩
  · rintro t ⟨⟩
    refine ⟨by decide, fun i => ?_⟩
    by_cases here : i = 0 <;> simp [here, init]
  · rintro t ⟨⟩
    refine ⟨by decide, fun i => ?_⟩
    by_cases here : i = 0 <;> simp [here, init]

end Sigil.Runtime.Pool
