import Sigil.Runtime.Task

/-!
# The life of a task

Every record passes once through the same stages: made by a SPAWN, queued, taken by a worker,
marked as running, run, and done. The places the code keeps a task in (a spawning caller, the
queue, a worker) say at which stage it is, so it is in one place at a time.
-/

namespace Sigil.Runtime

open Flow

/-- How far a task has come, and who has it. -/
inductive Stage (ι κ : Type*) where
  | unborn
  | spawning (i : ι)
  | queued
  | got (w : κ)
  | running (w : κ)
  | ran (w : κ)
  | done

/-- The function has run. -/
def Stage.hasRun {ι κ : Type*} : Stage ι κ → Bool
  | ran _ | done => true
  | _ => false

namespace PoolEvent

variable {ι κ α : Type*}

/-- The function and arguments a task was created with, in a history. -/
def worksGiven (t : Nat) (events : List (PoolEvent ι κ α)) : List α :=
  events.filterMap fun
    | insert _ u work => if u = t then some work else none
    | _ => none

/-- The functions and arguments run for a task, in a history. -/
def worksRun (t : Nat) (events : List (PoolEvent ι κ α)) : List α :=
  events.filterMap fun
    | run _ u work => if u = t then some work else none
    | _ => none

/-- Works are given one event after the other. -/
theorem worksGiven_append {t : Nat} {events later : List (PoolEvent ι κ α)} :
    worksGiven t (events ++ later) = worksGiven t events ++ worksGiven t later :=
  List.filterMap_append

/-- Works are run one event after the other. -/
theorem worksRun_append {t : Nat} {events later : List (PoolEvent ι κ α)} :
    worksRun t (events ++ later) = worksRun t events ++ worksRun t later :=
  List.filterMap_append

/-- Inserting a task gives its work. -/
theorem worksGiven_insert {t u : Nat} {i : ι} {work : α} :
    worksGiven t [(insert i u work : PoolEvent ι κ α)] = if u = t then [work] else [] := by
  by_cases same : u = t <;> simp [worksGiven, same]

/-- Running a task runs its work. -/
theorem worksRun_run {t u : Nat} {w : κ} {work : α} :
    worksRun t [(run w u work : PoolEvent ι κ α)] = if u = t then [work] else [] := by
  by_cases same : u = t <;> simp [worksRun, same]

end PoolEvent

namespace Pool

open PoolEvent

variable {ι κ α : Type*} {blank : α}
  {events : List (PoolEvent ι κ α)} {s s' : Pool ι κ α} {e : PoolEvent ι κ α}
  {stage : Nat → Stage ι κ}

/-- Where the code has a task at a stage. -/
def At (s : Pool ι κ α) (t : Nat) : Stage ι κ → Prop
  | .unborn => s.created ≤ t
  | .spawning i => s.callers i = .spawning t
  | .queued => t ∈ s.queue
  | .got w => s.workers w = .got t
  | .running w => s.workers w = .running t
  | .ran w => s.workers w = .ran t
  | .done => s.Finished t

/-- Every task is at one stage, and what a history has done with it fits the stage. -/
structure Lives (events : List (PoolEvent ι κ α)) (s : Pool ι κ α) (stage : Nat → Stage ι κ) :
    Prop where
  place : ∀ t x, s.At t x ↔ stage t = x
  once : s.queue.Nodup
  given : ∀ t, stage t ≠ .unborn → worksGiven t events = [(s.task t).work]
  notGiven : ∀ t, stage t = .unborn → worksGiven t events = []
  worked : ∀ t, worksRun t events = if (stage t).hasRun then [(s.task t).work] else []

/-- In a new pool no task is born. -/
theorem lives_init : Lives [] (init blank : Pool ι κ α) fun _ => .unborn where
  place t x := by cases x <;> simp [At, init, Finished, TaskStatus.finished]
  once := List.nodup_nil
  given t born := absurd rfl born
  notGiven _ _ := rfl
  worked _ := rfl

/-- A step that moves no task. -/
theorem Lives.quiet (lives : Lives events s stage) (created : s'.created = s.created)
    (task : s'.task = s.task) (queue : s'.queue = s.queue) (workers : s'.workers = s.workers)
    (callers : ∀ i t, s'.callers i = .spawning t ↔ s.callers i = .spawning t)
    (gives : ∀ t, worksGiven t [e] = []) (runs : ∀ t, worksRun t [e] = []) :
    Lives (events ++ [e]) s' stage where
  place t x := by
    rw [← lives.place]
    cases x <;> simp [At, Finished, created, task, queue, workers, callers]
  once := by rw [queue]; exact lives.once
  given := by simpa [worksGiven_append, gives, task] using lives.given
  notGiven := by simpa [worksGiven_append, gives] using lives.notGiven
  worked := by simpa [worksRun_append, runs, task] using lives.worked

/-- A caller goes from one phase to another, neither of them inside a SPAWN. -/
theorem call_spawning [DecidableEq ι] {i j : ι} {c : Caller} {t : Nat}
    (before : ∀ u, s.callers i ≠ .spawning u)
    (after : ∀ u, c ≠ .spawning u) : (s.call i c).callers j = .spawning t ↔
      s.callers j = .spawning t := by
  by_cases same : j = i
  · subst same
    simp [before t, after t]
  · simp [same]

/-- One task moves on, and every other stays where it is. -/
theorem Lives.move (lives : Lives events s stage) {t : Nat} {x y : Stage ι κ} (old : stage t = x)
    (keeps : ∀ u z, ¬ (u = t ∧ (z = x ∨ z = y)) → (s'.At u z ↔ s.At u z))
    (leaves : ¬ s'.At t x) (arrives : s'.At t y) (once : s'.queue.Nodup)
    (work : ∀ u, (s'.task u).work = (s.task u).work) (born : x ≠ .unborn) (stays : y ≠ .unborn)
    (gives : ∀ u, worksGiven u [e] = [])
    (runs : ∀ u, worksRun u [e] =
      if u = t ∧ y.hasRun ∧ ¬ x.hasRun then [(s.task t).work] else [])
    (grows : x.hasRun → y.hasRun) :
    Lives (events ++ [e]) s' (Function.update stage t y) where
  place u z := by
    by_cases same : u = t
    · subst same
      rw [Function.update_self]
      by_cases new : z = y
      · simp [new, arrives]
      · by_cases before : z = x
        · simp only [before, leaves, false_iff]
          exact fun same => new (before.trans same.symm)
        · rw [keeps u z (by simp [new, before]), lives.place, old]
          exact iff_of_false (Ne.symm before) (Ne.symm new)
    · rw [keeps u z (by simp [same]), Function.update_of_ne same, lives.place]
  once := once
  given u born' := by
    rw [worksGiven_append, gives, List.append_nil, work]
    by_cases same : u = t
    · exact lives.given u (same ▸ old ▸ born)
    · exact lives.given u (by rwa [Function.update_of_ne same] at born')
  notGiven u unborn := by
    by_cases same : u = t
    · subst same
      rw [Function.update_self] at unborn
      exact absurd unborn stays
    · rw [Function.update_of_ne same] at unborn
      rw [worksGiven_append, gives, List.append_nil]
      exact lives.notGiven u unborn
  worked u := by
    rw [worksRun_append, lives.worked, runs, work]
    by_cases same : u = t
    · subst same
      rw [Function.update_self, old]
      cases before : x.hasRun <;> cases after : y.hasRun <;> simp_all
    · simp [same]

/-- Queueing a task moves it on in its life. -/
theorem Lives.enqueue [DecidableEq ι] (lives : Lives events s stage) {i : ι} {t : Nat}
    {notEmpty : CondVar κ}
    (spawns : s.callers i = .spawning t) : Lives (events ++ [.enqueue i t])
      ({ s with queue := s.queue ++ [t], notEmpty }.call i .idle)
        (Function.update stage t .queued) := by
  have old : stage t = .spawning i := (lives.place t (.spawning i)).mp spawns
  have absent : t ∉ s.queue := fun member => by
    have := (lives.place t .queued).mp member
    rw [old] at this
    cases this
  refine lives.move old (fun u z moved => ?_) (by simp [At]) (by simp [At]) ?_ (fun _ => rfl)
    (by simp)
    (by simp) (fun _ => rfl) (fun u => ?_) (by simp [Stage.hasRun])
  · cases z with
    | spawning j =>
        by_cases mine : j = i
        · subst mine
          simp only [At, call_callers, Function.update_self, spawns]
          grind
        · simp [At, mine]
    | queued => simp [At]; grind
    | _ => rfl
  · exact List.nodup_append.mpr ⟨lives.once, List.nodup_singleton t, by grind⟩
  · simp [worksRun, Stage.hasRun]

/-- Taking a task from the queue moves it on in its life. -/
theorem Lives.dequeue [DecidableEq κ] (lives : Lives events s stage) {w : κ} {t : Nat}
    {rest : List Nat}
    {notEmpty : CondVar κ} (idle : s.workers w = .idle) (first : s.queue = t :: rest) :
    Lives (events ++ [.dequeue w t]) ({ s with queue := rest, notEmpty }.work w (.got t))
      (Function.update stage t (.got w)) := by
  have old : stage t = .queued := (lives.place t .queued).mp (by simp [At, first])
  have once := lives.once
  rw [first, List.nodup_cons] at once
  refine lives.move old (fun u z moved => ?_) (by simpa [At] using once.1) (by simp [At]) once.2
    (fun _ => rfl) (by simp) (by simp) (fun _ => rfl) (fun u => ?_) (by simp [Stage.hasRun])
  · cases z with
    | queued => simp only [At, work_queue, first]; grind
    | got v | running v | ran v =>
        by_cases mine : v = w
        · subst mine
          simp only [At, work_workers, Function.update_self, idle]
          grind
        · simp [At, mine]
    | _ => rfl
  · simp [worksRun, Stage.hasRun]

/-- Starting a task moves it on in its life. -/
theorem Lives.start [DecidableEq κ] (lives : Lives events s stage) {w : κ} {t : Nat}
    (got : s.workers w = .got t) :
    Lives (events ++ [.start w t]) ((s.setState t .running).work w (.running t))
      (Function.update stage t (.running w)) := by
  have old : stage t = .got w := (lives.place t (.got w)).mp got
  have unfinished : ¬ s.Finished t := fun finished => by
    have := (lives.place t .done).mp finished
    rw [old] at this
    cases this
  refine lives.move old (fun u z moved => ?_) (by simp [At]) (by simp [At]) lives.once (fun u => ?_)
    (by simp) (by simp) (fun _ => rfl) (fun u => ?_) (by simp [Stage.hasRun])
  · cases z with
    | got v | running v | ran v =>
        by_cases mine : v = w
        · subst mine
          simp only [At, work_workers, Function.update_self, got]
          grind
        · simp [At, mine]
    | done =>
        by_cases same : u = t
        · subst same
          simpa [At, Finished, TaskStatus.finished] using unfinished
        · simp [At, Finished, same]
    | _ => rfl
  · by_cases same : u = t
    · subst same
      simp
    · simp [same]
  · simp [worksRun, Stage.hasRun]

/-- Running a task moves it on in its life. -/
theorem Lives.run [DecidableEq κ] (lives : Lives events s stage) {w : κ} {t : Nat}
    (running : s.workers w = .running t) :
    Lives (events ++ [.run w t (s.task t).work]) (s.work w (.ran t))
      (Function.update stage t (.ran w)) := by
  have old : stage t = .running w := (lives.place t (.running w)).mp running
  refine lives.move old (fun u z moved => ?_) (by simp [At]) (by simp [At]) lives.once
    (fun _ => rfl)
    (by simp) (by simp) (fun _ => rfl) (fun u => ?_) (fun _ => rfl)
  · cases z with
    | got v | running v | ran v =>
        by_cases mine : v = w
        · subst mine
          simp only [At, work_workers, Function.update_self, running]
          grind
        · simp [At, mine]
    | _ => rfl
  · by_cases same : t = u
    · subst same
      simp [worksRun_run, Stage.hasRun]
    · simp [worksRun_run, same, Ne.symm same]

/-- Completing a task ends its life. -/
theorem Lives.complete [DecidableEq κ] (lives : Lives events s stage) {w : κ} {t : Nat}
    (ran : s.workers w = .ran t)
    {completed : Nat → CondVar ι} {anyCompleted : CondVar ι} :
    Lives (events ++ [.complete w t])
      ({ s.setState t .completed with completed, anyCompleted }.work w .idle)
      (Function.update stage t .done) := by
  have old : stage t = .ran w := (lives.place t (.ran w)).mp ran
  refine lives.move old (fun u z moved => ?_) (by simp [At])
    (by simp [At, Finished, TaskStatus.finished])
    lives.once (fun u => ?_) (by simp) (by simp) (fun _ => rfl) (fun u => ?_) (fun _ => rfl)
  · cases z with
    | got v | running v | ran v =>
        by_cases mine : v = w
        · subst mine
          simp only [At, work_workers, Function.update_self, ran]
          grind
        · simp [At, mine]
    | done =>
        have other : u ≠ t := fun same => moved ⟨same, .inr rfl⟩
        simp [At, Finished, other]
    | _ => rfl
  · by_cases same : u = t
    · subst same
      simp
    · simp [same]
  · simp [worksRun, Stage.hasRun]

/-- Inserting a task begins its life. -/
theorem Lives.insert [DecidableEq ι] (lives : Lives events s stage) {i : ι} (work : α)
    (free : s.callers i = .idle) :
    Lives (events ++ [.insert i s.created work]) ((s.inserted work).call i (.spawning s.created))
      (Function.update stage s.created (.spawning i)) := by
  have old : stage s.created = .unborn := (lives.place _ .unborn).mp (Nat.le_refl _)
  have nowhere : ∀ z, s.At s.created z ↔ z = .unborn := fun z => by
    rw [lives.place, old, eq_comm]
  refine ⟨fun u z => ?_, lives.once, fun u born => ?_, fun u unborn => ?_, fun u => ?_⟩
  · by_cases same : u = s.created
    · subst same
      rw [Function.update_self]
      have before := nowhere z
      cases z with
      | unborn => simp [At]
      | spawning j =>
          by_cases mine : j = i
          · simp [At, mine]
          · simpa [At, mine, Ne.symm mine] using before
      | done => simp [At, Finished, TaskStatus.finished]
      | queued | got v | running v | ran v => simpa [At] using before
    · rw [Function.update_of_ne same, ← lives.place]
      cases z with
      | unborn => simp only [At, call_created, inserted_created]; omega
      | spawning j =>
          by_cases mine : j = i
          · simp [At, mine, free, Ne.symm same]
          · simp [At, mine]
      | done => simp [At, Finished, same]
      | queued | got v | running v | ran v => rfl
  · rw [worksGiven_append]
    by_cases same : u = s.created
    · subst same
      simp [lives.notGiven _ old, worksGiven_insert]
    · rw [Function.update_of_ne same] at born
      simp [lives.given u born, worksGiven_insert, Ne.symm same, same]
  · by_cases same : u = s.created
    · subst same
      simp at unborn
    · rw [Function.update_of_ne same] at unborn
      simp [worksGiven_append, lives.notGiven u unborn, worksGiven_insert, Ne.symm same]
  · rw [worksRun_append, lives.worked]
    by_cases same : u = s.created
    · subst same
      simp [worksRun, old, Stage.hasRun]
    · simp [worksRun, same]

/-- A thread that holds a task is not spawning. -/
theorem Holds.not_spawning {i : ι} {target : Option Nat} {t : Nat} (holds : s.Holds i target t)
    (u : Nat) :
    s.callers i ≠ .spawning u := by
  obtain ⟨waits, _⟩ | ⟨inside, _⟩ := holds
  · simp [waits]
  · simp [inside]

/-- A thread that has found a task is not spawning. -/
theorem Finds.not_spawning {i : ι} {target : Option Nat} {t : Nat} (finds : s.Finds i target t)
    (u : Nat) :
    s.callers i ≠ .spawning u := by
  obtain ⟨_, before, after, waits, _⟩ := finds
  simp [waits]

/-- Every step leaves each task at a stage, with a history that fits it. -/
theorem Lives.step [DecidableEq ι] [DecidableEq κ] (lives : Lives events s stage)
    (next : Step s e s') :
    ∃ stage', Lives (events ++ [e]) s' stage' := by
  cases next with
  | insert work free => exact ⟨_, lives.insert work free⟩
  | enqueue spawns signals => exact ⟨_, lives.enqueue spawns⟩
  | dequeue idle awake first => exact ⟨_, lives.dequeue idle first⟩
  | start got => exact ⟨_, lives.start got⟩
  | run running => exact ⟨_, lives.run running⟩
  | complete ran => exact ⟨_, lives.complete ran⟩
  | spawnFails | workerWaits | workerWakes | blockAny | wake | wakeAny =>
      exact ⟨_, lives.quiet rfl rfl rfl rfl (fun _ _ => Iff.rfl) (fun _ => rfl) fun _ => rfl⟩
  | wait free | waitAny free | missing free | free free =>
      exact ⟨_, lives.quiet rfl rfl rfl rfl (fun _ _ => call_spawning (by simp [free]) (by simp))
        (fun _ => rfl) fun _ => rfl⟩
  | block holds | reap holds =>
      exact ⟨_, lives.quiet rfl rfl rfl rfl
        (fun _ _ => call_spawning (fun u => holds.not_spawning u) (by simp)) (fun _ => rfl)
          fun _ => rfl⟩
  | reapAny finds =>
      exact ⟨_, lives.quiet rfl rfl rfl rfl
        (fun _ _ => call_spawning (fun u => finds.not_spawning u) (by simp)) (fun _ => rfl)
          fun _ => rfl⟩

end Pool

end Sigil.Runtime
