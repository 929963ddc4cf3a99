import Sigil.Flow.CondVar
import Sigil.Flow.Runs

/-!
# Tasks

The task table, the run queue, the workers and the callers of spawn and wait. A step is one
lock-protected section, or what a thread does between two of them: a worker runs the task's
function, a caller that has reaped a task frees its record. Records are numbered in the
order of their creation, so a record that was freed is never mistaken for a later one; the
program's copy of a handle is named by the SPAWN that returned it.
-/

namespace Sigil.Runtime

open Flow

/-- `TaskState`; no code sets the last one. -/
inductive TaskStatus where
  | pending
  | running
  | completed
  | failed
  deriving DecidableEq

def TaskStatus.finished (state : TaskStatus) : Bool := state = .completed ∨ state = .failed

/-- The record of a task: the function with the argument bytes, and the state. -/
structure Task (α : Type*) where
  work : α
  state : TaskStatus

/-- A thread of the pool: in its dequeue loop, or with a task it has taken, marked as
running, or run. -/
inductive Worker where
  | idle
  | got (t : Nat)
  | running (t : Nat)
  | ran (t : Nat)
  deriving DecidableEq

/-- A thread that calls the runtime. A wait names the SPAWN whose handle it was given, or none
for the handle 0 of a failed one. In the loop of `sigil_wait` the caller holds a pointer. -/
inductive Caller where
  | idle
  | spawning (t : Nat)
  | waiting (target : Option Nat)
  | holding (target : Option Nat) (t : Nat)
  | waitingAny (targets : List (Option Nat))
  | reaping (target : Option Nat) (t : Nat)
  deriving DecidableEq

/-- The SPAWNs whose handles a caller was given. -/
def Caller.targets : Caller → List (Option Nat)
  | waiting target | holding target _ | reaping target _ => [target]
  | waitingAny targets => targets
  | idle | spawning _ => []

/-- What a step of the pool does. -/
inductive PoolEvent (ι κ α : Type*) where
  | insert (i : ι) (t : Nat) (work : α)
  | spawnFails (i : ι)
  | enqueue (i : ι) (t : Nat)
  | workerWaits (w : κ)
  | workerWakes (w : κ)
  | dequeue (w : κ) (t : Nat)
  | start (w : κ) (t : Nat)
  | run (w : κ) (t : Nat) (work : α)
  | complete (w : κ) (t : Nat)
  | wait (i : ι) (target : Option Nat)
  | waitAny (i : ι) (targets : List (Option Nat))
  | missing (i : ι) (target : Option Nat)
  | block (i : ι) (target : Option Nat) (t : Nat)
  | blockAny (i : ι) (targets : List (Option Nat))
  | wake (i : ι)
  | reap (i : ι) (target : Option Nat) (t : Nat)
  | free (i : ι) (target : Option Nat) (t : Nat)

/-- The state of the runtime; `handle` is what each SPAWN returned. -/
structure Pool (ι κ α : Type*) where
  created : Nat
  task : Nat → Task α
  freed : Finset Nat
  capacity : Nat
  table : Nat → Option Nat
  handle : Nat → Nat
  queue : List Nat
  notEmpty : CondVar κ
  workers : κ → Worker
  callers : ι → Caller
  completed : Nat → CondVar ι
  anyCompleted : CondVar ι

namespace Pool

variable {ι κ α : Type*}

def initialTableSize : Nat := 1024

/-- The runtime after its initialisation. -/
def init (blank : α) : Pool ι κ α where
  created := 0
  task _ := ⟨blank, .pending⟩
  freed := ∅
  capacity := initialTableSize
  table _ := none
  handle _ := 0
  queue := []
  notEmpty := .init
  workers _ := .idle
  callers _ := .idle
  completed _ := .init
  anyCompleted := .init

/-- The handle a wait is given. -/
def handleOf (s : Pool ι κ α) : Option Nat → Nat
  | none => 0
  | some t => s.handle t

/-- The task in the slot of a handle. -/
def lookup (s : Pool ι κ α) (h : Nat) : Option Nat :=
  if 0 < h ∧ h < s.capacity then s.table h else none

/-- The slot `task_table_insert` takes, and the capacity afterwards. -/
def slot (s : Pool ι κ α) : Nat × Nat :=
  match (List.range' 1 (s.capacity - 1)).find? fun i => (s.table i).isNone with
  | some i => (i, s.capacity)
  | none => (s.capacity, s.capacity * 2)

/-- The task of a record has finished. -/
def Finished (s : Pool ι κ α) (t : Nat) : Prop := (s.task t).state.finished = true

instance (s : Pool ι κ α) (t : Nat) : Decidable (s.Finished t) :=
  inferInstanceAs (Decidable (_ = true))

/-- A SPAWN has returned. -/
def Returned (s : Pool ι κ α) (t : Nat) : Prop := t < s.created ∧ ∀ i, s.callers i ≠ .spawning t

/-- A caller inside `sigil_wait` has the lock and a task: from the table, or from before. -/
def Holds (s : Pool ι κ α) (i : ι) (target : Option Nat) (t : Nat) : Prop :=
  (s.callers i = .waiting target ∧ s.lookup (s.handleOf target) = some t) ∨
    (s.callers i = .holding target t ∧ i ∉ (s.completed t).waiting)

/-- A caller inside `sigil_wait_any` has the lock and finds the first finished task. -/
def Finds (s : Pool ι κ α) (i : ι) (target : Option Nat) (t : Nat) : Prop :=
  i ∉ s.anyCompleted.waiting ∧ ∃ before after,
    s.callers i = .waitingAny (before ++ target :: after) ∧
      (∀ u ∈ before, ∀ t', s.lookup (s.handleOf u) = some t' → ¬ s.Finished t') ∧
      s.lookup (s.handleOf target) = some t

@[simps] def call [DecidableEq ι] (s : Pool ι κ α) (i : ι) (c : Caller) : Pool ι κ α :=
  { s with callers := Function.update s.callers i c }

@[simps] def work [DecidableEq κ] (s : Pool ι κ α) (w : κ) (x : Worker) : Pool ι κ α :=
  { s with workers := Function.update s.workers w x }

@[simps] def setState (s : Pool ι κ α) (t : Nat) (state : TaskStatus) : Pool ι κ α :=
  { s with task := Function.update s.task t { s.task t with state } }

/-- The new record in its slot. -/
@[simps] def inserted (s : Pool ι κ α) (work : α) : Pool ι κ α :=
  { s with
    created := s.created + 1
    task := Function.update s.task s.created ⟨work, .pending⟩
    capacity := s.slot.2
    table := Function.update s.table s.slot.1 (some s.created)
    handle := Function.update s.handle s.created s.slot.1 }

/-- The slot of a handle is cleared. -/
@[simps] def removed (s : Pool ι κ α) (h : Nat) : Pool ι κ α :=
  { s with table := Function.update s.table h none }

variable [DecidableEq ι] [DecidableEq κ]

/-- The steps of the pool. -/
inductive Step : Pool ι κ α → PoolEvent ι κ α → Pool ι κ α → Prop where
  | insert {s : Pool ι κ α} {i : ι} (work : α) (free : s.callers i = .idle) :
      Step s (.insert i s.created work) ((s.inserted work).call i (.spawning s.created))
  | spawnFails {s : Pool ι κ α} {i : ι} (free : s.callers i = .idle) : Step s (.spawnFails i) s
  | enqueue {s : Pool ι κ α} {i : ι} {t : Nat} {notEmpty : CondVar κ}
      (spawns : s.callers i = .spawning t) (signals : s.notEmpty.Signals notEmpty) :
      Step s (.enqueue i t) ({ s with queue := s.queue ++ [t], notEmpty }.call i .idle)
  | workerWaits {s : Pool ι κ α} {w : κ} (idle : s.workers w = .idle)
      (awake : w ∉ s.notEmpty.waiting) (none : s.queue = []) :
      Step s (.workerWaits w) { s with notEmpty := s.notEmpty.wait w }
  | workerWakes {s : Pool ι κ α} {w : κ} (blocked : w ∈ s.notEmpty.waiting) :
      Step s (.workerWakes w) { s with notEmpty := s.notEmpty.leave w }
  | dequeue {s : Pool ι κ α} {w : κ} {t : Nat} {rest : List Nat} (idle : s.workers w = .idle)
      (awake : w ∉ s.notEmpty.waiting) (first : s.queue = t :: rest) :
      Step s (.dequeue w t)
        ({ s with queue := rest, notEmpty := s.notEmpty.leave w }.work w (.got t))
  | start {s : Pool ι κ α} {w : κ} {t : Nat} (got : s.workers w = .got t) :
      Step s (.start w t) ((s.setState t .running).work w (.running t))
  | run {s : Pool ι κ α} {w : κ} {t : Nat} (running : s.workers w = .running t) :
      Step s (.run w t (s.task t).work) (s.work w (.ran t))
  | complete {s : Pool ι κ α} {w : κ} {t : Nat} (ran : s.workers w = .ran t) :
      Step s (.complete w t)
        ({ s.setState t .completed with
          completed := Function.update s.completed t (s.completed t).broadcast
          anyCompleted := s.anyCompleted.broadcast }.work w .idle)
  | wait {s : Pool ι κ α} {i : ι} {target : Option Nat} (free : s.callers i = .idle)
      (known : ∀ t ∈ target, s.Returned t) : Step s (.wait i target) (s.call i (.waiting target))
  | waitAny {s : Pool ι κ α} {i : ι} {targets : List (Option Nat)} (free : s.callers i = .idle)
      (known : ∀ t, some t ∈ targets → s.Returned t) :
      Step s (.waitAny i targets) (s.call i (.waitingAny targets))
  | missing {s : Pool ι κ α} {i : ι} {target : Option Nat} (waits : s.callers i = .waiting target)
      (none : s.lookup (s.handleOf target) = none) : Step s (.missing i target) (s.call i .idle)
  | block {s : Pool ι κ α} {i : ι} {target : Option Nat} {t : Nat} (holds : s.Holds i target t)
      (unfinished : ¬ s.Finished t) :
      Step s (.block i target t) ({ s with
        completed := Function.update s.completed t ((s.completed t).wait i) }.call i (.holding target t))
  | reap {s : Pool ι κ α} {i : ι} {target : Option Nat} {t : Nat} (holds : s.Holds i target t)
      (finished : s.Finished t) :
      Step s (.reap i target t) (({ s with
        completed := Function.update s.completed t ((s.completed t).leave i) }.removed
          (s.handleOf target)).call i (.reaping target t))
  | blockAny {s : Pool ι κ α} {i : ι} {targets : List (Option Nat)}
      (waits : s.callers i = .waitingAny targets) (awake : i ∉ s.anyCompleted.waiting)
      (unfinished : ∀ u ∈ targets, ∀ t, s.lookup (s.handleOf u) = some t → ¬ s.Finished t) :
      Step s (.blockAny i targets) { s with anyCompleted := s.anyCompleted.wait i }
  | reapAny {s : Pool ι κ α} {i : ι} {target : Option Nat} {t : Nat} (finds : s.Finds i target t)
      (finished : s.Finished t) :
      Step s (.reap i target t) (({ s with anyCompleted := s.anyCompleted.leave i }.removed
        (s.handleOf target)).call i (.reaping target t))
  | wake {s : Pool ι κ α} {i : ι} {t : Nat} (blocked : i ∈ (s.completed t).waiting) :
      Step s (.wake i) { s with
        completed := Function.update s.completed t ((s.completed t).leave i) }
  | wakeAny {s : Pool ι κ α} {i : ι} (blocked : i ∈ s.anyCompleted.waiting) :
      Step s (.wake i) { s with anyCompleted := s.anyCompleted.leave i }
  | free {s : Pool ι κ α} {i : ι} {target : Option Nat} {t : Nat}
      (reaps : s.callers i = .reaping target t) :
      Step s (.free i target t) ({ s with freed := insert t s.freed }.call i .idle)

/-- The records a step reads, writes or frees. -/
def touched (s : Pool ι κ α) : PoolEvent ι κ α → List Nat
  | .enqueue _ t => t :: s.queue.getLast?.toList
  | .dequeue _ t | .start _ t | .run _ t _ | .complete _ t | .block _ _ t | .free _ _ t => [t]
  | .blockAny _ targets => targets.filterMap fun u => s.lookup (s.handleOf u)
  | .reap i _ t =>
      match s.callers i with
      | .waitingAny targets => targets.filterMap fun u => s.lookup (s.handleOf u)
      | _ => [t]
  | _ => []

end Pool

end Sigil.Runtime
