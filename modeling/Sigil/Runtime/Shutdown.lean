import Sigil.Flow.CondVar
import Sigil.Flow.Runs

/-!
# Shutdown of the workers

The dequeue loop of the workers in the steps that matter to shutdown. `scheduler_dequeue` tests
the queue and the flag and then waits, with the queue lock; `sigil_runtime_shutdown` writes the
flag and broadcasts without it. A worker that has tested when the broadcast comes, and waits
after it, is not woken.
-/

namespace Sigil.Runtime

open Flow

/-- Where a worker is in its loop: outside of the lock, at the loop's test, at the condition
wait, in it, behind the loop, or with a task. -/
inductive WorkerPhase where
  | outside
  | testing
  | toWait
  | asleep
  | taking
  | running (t : Nat)
  | exited
  deriving DecidableEq

def WorkerPhase.hasLock : WorkerPhase → Bool
  | testing | toWait | taking => true
  | outside | asleep | running _ | exited => false

/-- Where the thread is that shuts the runtime down. -/
inductive MainPhase where
  | running
  | flagged
  | joining
  | joined
  | cleared
  deriving DecidableEq

/-- The broadcast of shutdown has happened. -/
def MainPhase.hasBroadcast : MainPhase → Bool
  | running | flagged => false
  | joining | joined | cleared => true

/-- What a step of the scheduler does. -/
inductive SchedulerEvent (κ : Type*) where
  | enqueue (t : Nat)
  | lock (w : κ)
  | test (w : κ)
  | wait (w : κ)
  | wake (w : κ)
  | take (w : κ) (t : Nat)
  | run (w : κ) (t : Nat)
  | exit (w : κ)
  | flag
  | broadcast
  | join
  | clear
  deriving DecidableEq

namespace SchedulerEvent

variable {κ : Type*} {events : List (SchedulerEvent κ)} {e : SchedulerEvent κ} {t : Nat}

/-- The tasks enqueued before the shutdown flag was written. -/
def early : List (SchedulerEvent κ) → List Nat
  | [] => []
  | flag :: _ => []
  | enqueue t :: rest => t :: early rest
  | _ :: rest => early rest

/-- The tasks whose functions were run. -/
def executed (events : List (SchedulerEvent κ)) : List Nat :=
  events.filterMap fun
    | run _ t => some t
    | _ => none

/-- The steps workers take when they are not blocked. -/
def ofWorker : SchedulerEvent κ → Bool
  | lock _ | test _ | wait _ | take _ _ | run _ _ | exit _ => true
  | _ => false

/-- An early task was early before or is queued before the flag. -/
theorem mem_early_snoc (member : t ∈ early (events ++ [e])) :
    t ∈ early events ∨ (e = enqueue t ∧ flag ∉ events) := by
  induction events with
  | nil => cases e <;> simp_all [early]
  | cons first rest ih =>
      cases first with
      | flag => simp [early] at member
      | enqueue u =>
          obtain rfl | later := List.mem_cons.mp member
          · exact .inl (List.mem_cons_self ..)
          · exact (ih later).imp (List.mem_cons_of_mem _) (by simp)
      | _ => exact (ih member).imp id (by simp)

end SchedulerEvent

/-- The run queue, the threads at it, and the shutdown of the runtime. Tasks are numbered in
the order in which they are enqueued. -/
structure Scheduler (κ : Type*) where
  created : Nat
  queue : List Nat
  shutdown : Bool
  lock : Option κ
  notEmpty : CondVar κ
  workers : κ → WorkerPhase
  main : MainPhase

namespace Scheduler

variable {κ : Type*}

def init : Scheduler κ where
  created := 0
  queue := []
  shutdown := false
  lock := none
  notEmpty := .init
  workers _ := .outside
  main := .running

variable [DecidableEq κ]

/-- A worker goes on with the lock. -/
@[simps] def hold (s : Scheduler κ) (w : κ) (x : WorkerPhase) : Scheduler κ :=
  { s with workers := Function.update s.workers w x, lock := some w }

/-- A worker goes on without the lock. -/
@[simps] def release (s : Scheduler κ) (w : κ) (x : WorkerPhase) : Scheduler κ :=
  { s with workers := Function.update s.workers w x, lock := none }

/-- The steps of the scheduler. -/
inductive Step : Scheduler κ → SchedulerEvent κ → Scheduler κ → Prop where
  | enqueue {s : Scheduler κ} {notEmpty : CondVar κ} (free : s.lock = none)
      (signals : s.notEmpty.Signals notEmpty) : Step s (.enqueue s.created)
        { s with created := s.created + 1, queue := s.queue ++ [s.created], notEmpty }
  | lock {s : Scheduler κ} {w : κ} (free : s.lock = none) (outside : s.workers w = .outside) :
      Step s (.lock w) (s.hold w .testing)
  | relock {s : Scheduler κ} {w : κ} (free : s.lock = none) (asleep : s.workers w = .asleep)
      (awake : w ∉ s.notEmpty.waiting) :
      Step s (.lock w) ({ s with notEmpty := s.notEmpty.leave w }.hold w .testing)
  | test {s : Scheduler κ} {w : κ} (tests : s.workers w = .testing) :
      Step s (.test w)
        (s.hold w (if s.queue = [] ∧ s.shutdown = false then .toWait else .taking))
  | wait {s : Scheduler κ} {w : κ} (waits : s.workers w = .toWait) :
      Step s (.wait w) ({ s with notEmpty := s.notEmpty.wait w }.release w .asleep)
  | wake {s : Scheduler κ} {w : κ} (blocked : w ∈ s.notEmpty.waiting) :
      Step s (.wake w) { s with notEmpty := s.notEmpty.leave w }
  | take {s : Scheduler κ} {w : κ} {t : Nat} {rest : List Nat} (takes : s.workers w = .taking)
      (first : s.queue = t :: rest) :
      Step s (.take w t) ({ s with queue := rest }.release w (.running t))
  | exit {s : Scheduler κ} {w : κ} (takes : s.workers w = .taking) (none : s.queue = []) :
      Step s (.exit w) (s.release w .exited)
  | run {s : Scheduler κ} {w : κ} {t : Nat} (runs : s.workers w = .running t) :
      Step s (.run w t) { s with workers := Function.update s.workers w .outside }
  | flag {s : Scheduler κ} (before : s.main = .running) :
      Step s .flag { s with shutdown := true, main := .flagged }
  | broadcast {s : Scheduler κ} (before : s.main = .flagged) :
      Step s .broadcast { s with notEmpty := s.notEmpty.broadcast, main := .joining }
  | join {s : Scheduler κ} (before : s.main = .joining) (all : ∀ w, s.workers w = .exited) :
      Step s .join { s with main := .joined }
  | clear {s : Scheduler κ} (before : s.main = .joined) (free : s.lock = none) :
      Step s .clear { s with
        queue := [], shutdown := true, notEmpty := s.notEmpty.broadcast, main := .cleared }

variable {events : List (SchedulerEvent κ)} {s s' : Scheduler κ} {e : SchedulerEvent κ} {w : κ}
  {t : Nat}

/-- At the broadcast no worker stands between its test and its wait. -/
def Settled (s : Scheduler κ) (e : SchedulerEvent κ) : Prop :=
  e = .broadcast → ∀ w, s.workers w ≠ .toWait

/-- What the lock, the flag and the phases have to do with each other. -/
structure Shape (s : Scheduler κ) : Prop where
  lock : ∀ w, s.lock = some w ↔ (s.workers w).hasLock = true
  asleep : ∀ w ∈ s.notEmpty.waiting, s.workers w = .asleep
  taking : ∀ w, s.workers w = .taking → s.queue ≠ [] ∨ s.shutdown = true
  exited : ∀ w, s.workers w = .exited → s.shutdown = true
  flagged : s.main ≠ .running → s.shutdown = true

omit [DecidableEq κ] in
/-- The new scheduler is in shape. -/
theorem shape_init : Shape (init : Scheduler κ) where
  lock := by simp [init, WorkerPhase.hasLock]
  asleep := by simp [init]
  taking := by simp [init]
  exited := by simp [init]
  flagged := by simp [init]

omit [DecidableEq κ] in
/-- While one worker has the lock no other is inside. -/
theorem Shape.outside (shape : Shape s) (inside : (s.workers w).hasLock = true) {v : κ}
    (other : v ≠ w) :
    (s.workers v).hasLock = false := by
  have mine := (shape.lock w).mpr inside
  have theirs := mt (shape.lock v).mpr (by simpa [mine] using Ne.symm other)
  simpa using theirs

omit [DecidableEq κ] in
/-- Where the lock is free no worker has it. -/
theorem Shape.nobody (shape : Shape s) (free : s.lock = none) (v : κ) :
    (s.workers v).hasLock = false := by
  have := mt (shape.lock v).mpr (by simp [free])
  simpa using this

/-- One worker goes on, with the lock or without it, and no other is inside. -/
theorem Shape.move (shape : Shape s) {x : WorkerPhase}
    (others : ∀ v, v ≠ w → (s.workers v).hasLock = false)
    (workers : s'.workers = Function.update s.workers w x)
    (lock : s'.lock = if x.hasLock then some w else none) (shutdown : s'.shutdown = s.shutdown)
    (main : s'.main = s.main)
    (asleep : ∀ v ∈ s'.notEmpty.waiting, (v = w ∧ x = .asleep) ∨ (v ≠ w ∧ v ∈ s.notEmpty.waiting))
    (taking : x = .taking → s'.queue ≠ [] ∨ s.shutdown = true)
    (exited : x = .exited → s.shutdown = true) : Shape s' := by
  refine ⟨fun v => ?_, fun v blocked => ?_, fun v takes => ?_, fun v left => ?_, ?_⟩
  · rw [lock, workers]
    by_cases same : v = w
    · subst same
      cases inside : x.hasLock <;> simp [inside]
    · cases inside : x.hasLock <;> simp [same, Ne.symm same, others v same]
  · rw [workers]
    obtain ⟨rfl, rfl⟩ | ⟨other, before⟩ := asleep v blocked
    · simp
    · simpa [other] using shape.asleep v before
  · rw [workers] at takes
    rw [shutdown]
    by_cases same : v = w
    · exact taking (by simpa [same] using takes)
    · have outside := others v same
      simp only [Function.update_of_ne same] at takes
      simp [takes, WorkerPhase.hasLock] at outside
  · rw [workers] at left
    rw [shutdown]
    by_cases same : v = w
    · exact exited (by simpa [same] using left)
    · exact shape.exited v (by simpa [same] using left)
  · rw [main, shutdown]
    exact shape.flagged

omit [DecidableEq κ] in
/-- A worker that is not asleep is not blocked. -/
theorem Shape.awake (shape : Shape s) (up : s.workers w ≠ .asleep) :
    ∀ v ∈ s.notEmpty.waiting, v ≠ w ∧ v ∈ s.notEmpty.waiting := by
  rintro v blocked
  refine ⟨?_, blocked⟩
  rintro rfl
  exact up (shape.asleep v blocked)

/-- Every step keeps the scheduler in shape. -/
theorem Shape.step (shape : Shape s) (next : Step s e s') : Shape s' := by
  obtain ⟨lock, asleep, taking, exited, flagged⟩ := id shape
  cases next with
  | enqueue free signals =>
      refine ⟨lock, fun w blocked => asleep w ?_, fun w takes => .inl (by simp), exited, flagged⟩
      obtain ⟨_, rfl⟩ | ⟨v, _, rfl⟩ := signals
      · exact blocked
      · exact Finset.mem_of_mem_erase blocked
  | lock free outside =>
      exact shape.move (fun v _ => shape.nobody free v) rfl rfl rfl rfl
        (fun v blocked => .inr (shape.awake (by simp [outside]) v blocked)) (by simp) (by simp)
  | @relock w free sleeps awake =>
      refine shape.move (w := w) (fun v _ => shape.nobody free v) rfl rfl rfl rfl ?_ (by simp)
        (by simp)
      exact fun v blocked => .inr ⟨Finset.ne_of_mem_erase blocked, Finset.mem_of_mem_erase blocked⟩
  | @test w tests =>
      have inside : (s.workers w).hasLock = true := by simp [tests, WorkerPhase.hasLock]
      refine shape.move (w := w) (fun v other => shape.outside inside other) rfl ?_ rfl rfl
        (fun v blocked => .inr (shape.awake (by simp [tests]) v blocked)) ?_ ?_
      · split <;> simp [WorkerPhase.hasLock]
      · split
        next => simp
        next other =>
          intro _
          by_contra neither
          simp only [not_or, not_not, Bool.not_eq_true] at neither
          exact other neither
      · split <;> simp
  | @wait w waits =>
      have inside : (s.workers w).hasLock = true := by simp [waits, WorkerPhase.hasLock]
      refine shape.move (w := w) (fun v other => shape.outside inside other) rfl rfl rfl rfl ?_
        (by simp) (by simp)
      intro v blocked
      obtain rfl | before := Finset.mem_insert.mp blocked
      · exact .inl ⟨rfl, rfl⟩
      · exact .inr (shape.awake (by simp [waits]) v before)
  | wake blocked =>
      exact ⟨lock, fun v still => asleep v (Finset.mem_of_mem_erase still), taking, exited, flagged⟩
  | @take w t rest takes first =>
      have inside : (s.workers w).hasLock = true := by simp [takes, WorkerPhase.hasLock]
      exact shape.move (fun v other => shape.outside inside other) rfl rfl rfl rfl
        (fun v blocked => .inr (shape.awake (by simp [takes]) v blocked)) (by simp) (by simp)
  | @exit w takes none =>
      have inside : (s.workers w).hasLock = true := by simp [takes, WorkerPhase.hasLock]
      exact shape.move (fun v other => shape.outside inside other) rfl rfl rfl rfl
        (fun v blocked => .inr (shape.awake (by simp [takes]) v blocked)) (by simp)
        fun _ => (taking w takes).resolve_left (not_not.mpr none)
  | @run w t runs =>
      have same : ∀ {v y}, y ≠ .outside → Function.update s.workers w .outside v = y →
        s.workers v = y := by
        intro v y other after
        by_cases mine : v = w
        · subst mine
          simp [Ne.symm other] at after
        · simpa [mine] using after
      refine ⟨fun v => ?_, fun v blocked => ?_, fun v after => taking v (same (by simp) after),
        fun v after => exited v (same (by simp) after), flagged⟩
      · rw [lock]
        by_cases mine : v = w
        · simp [mine, runs, WorkerPhase.hasLock]
        · simp [mine]
      · have other := (shape.awake (w := w) (by simp [runs]) v blocked).1
        simpa [other] using asleep v blocked
  | flag before => exact ⟨lock, asleep, fun _ _ => .inr rfl, fun _ _ => rfl, fun _ => rfl⟩
  | broadcast before =>
      exact ⟨lock, by simp, taking, exited, fun _ => flagged (by simp [before])⟩
  | join before all => exact ⟨lock, asleep, taking, exited, fun _ => flagged (by simp [before])⟩
  | clear before free => exact ⟨lock, by simp, fun _ _ => .inr rfl, fun _ _ => rfl, fun _ => rfl⟩

/-- After the broadcast no worker is blocked or about to be. -/
def Roused (s : Scheduler κ) : Prop :=
  s.main.hasBroadcast = true → ∀ w, w ∉ s.notEmpty.waiting ∧ s.workers w ≠ .toWait

omit [DecidableEq κ] in
/-- In the new scheduler nobody waits. -/
theorem roused_init : Roused (init : Scheduler κ) := by
  simp [Roused, init, MainPhase.hasBroadcast]

/-- Every settled step keeps the sleepers roused. -/
theorem Roused.step (roused : Roused s) (shape : Shape s) (next : Step s e s')
    (settled : Settled s e) :
    Roused s' := by
  intro broadcast v
  have update : ∀ {w x}, x ≠ .toWait → s.workers v ≠ .toWait →
      Function.update s.workers w x v ≠ .toWait := by
    intro w x other before
    by_cases mine : v = w
    · simpa [mine] using other
    · simpa [mine] using before
  cases next with
  | enqueue free signals =>
      obtain ⟨before, phase⟩ := roused broadcast v
      refine ⟨?_, phase⟩
      obtain ⟨_, rfl⟩ | ⟨u, _, rfl⟩ := signals
      · exact before
      · exact fun blocked => before (Finset.mem_of_mem_erase blocked)
  | lock | take | exit | run =>
      obtain ⟨before, phase⟩ := roused broadcast v
      exact ⟨before, update (by simp) phase⟩
  | relock =>
      obtain ⟨before, phase⟩ := roused broadcast v
      exact ⟨fun blocked => before (Finset.mem_of_mem_erase blocked), update (by simp) phase⟩
  | test tests =>
      obtain ⟨before, phase⟩ := roused broadcast v
      have flagged :=
        shape.flagged (by rintro main; simp [main, MainPhase.hasBroadcast] at broadcast)
      exact ⟨before, update (by simp [flagged]) phase⟩
  | @wait w waits => exact absurd waits (roused broadcast w).2
  | wake =>
      obtain ⟨before, phase⟩ := roused broadcast v
      exact ⟨fun blocked => before (Finset.mem_of_mem_erase blocked), phase⟩
  | flag => simp [MainPhase.hasBroadcast] at broadcast
  | broadcast => exact ⟨by simp, settled rfl v⟩
  | join before => exact roused (by simp [before, MainPhase.hasBroadcast]) v
  | clear before => exact ⟨by simp, (roused (by simp [before, MainPhase.hasBroadcast]) v).2⟩

open SchedulerEvent

/-- A task is in the queue, with a worker, or was run. -/
def Placed (events : List (SchedulerEvent κ)) (s : Scheduler κ) (t : Nat) : Prop :=
  t ∈ s.queue ∨ (∃ w, s.workers w = .running t) ∨ t ∈ executed events

/-- What becomes of the tasks enqueued before shutdown: a worker that has left saw an empty
queue. -/
structure Accounts (events : List (SchedulerEvent κ)) (s : Scheduler κ) : Prop where
  unflagged : SchedulerEvent.flag ∉ events → s.shutdown = false
  born : ∀ t ∈ early events, t < s.created
  placed : ∀ t ∈ early events, Placed events s t
  left : ∀ w, s.workers w = .exited → ∀ t ∈ early events, t ∉ s.queue
  joined : s.main = .joined → ∀ w, s.workers w = .exited

omit [DecidableEq κ] in
/-- The new scheduler accounts for no events. -/
theorem accounts_init : Accounts [] (init : Scheduler κ) where
  unflagged _ := rfl
  born := by simp [early]
  placed := by simp [early]
  left := by simp [init]
  joined := by simp [init]

omit [DecidableEq κ] in
/-- A step that enqueues nothing. -/
theorem Accounts.keep (accounts : Accounts events s) (silent : ∀ t, e ≠ .enqueue t)
    (created : s'.created = s.created) (shutdown : e = .flag ∨ s'.shutdown = s.shutdown)
    (placed : ∀ t ∈ early events, Placed events s t → Placed (events ++ [e]) s' t)
    (left : ∀ w, s'.workers w = .exited → s'.queue = [] ∨ s.workers w = .exited)
    (queue : ∀ t ∈ s'.queue, t ∈ s.queue)
    (joined : s'.main = .joined → ∀ w, s'.workers w = .exited) : Accounts (events ++ [e]) s' := by
  have old : ∀ t ∈ early (events ++ [e]), t ∈ early events := fun t member =>
    (mem_early_snoc member).resolve_right fun new => silent t new.1
  refine ⟨fun unflagged => ?_, fun t member => ?_, fun t member => ?_, fun w exited t member =>
    ?_, joined⟩
  · simp only [List.mem_append, List.mem_singleton, not_or] at unflagged
    obtain flags | same := shutdown
    · exact absurd flags.symm unflagged.2
    · exact same.trans (accounts.unflagged unflagged.1)
  · exact created ▸ accounts.born t (old t member)
  · exact placed t (old t member) (accounts.placed t (old t member))
  · obtain none | before := left w exited
    · simp [none]
    · exact fun waits => accounts.left w before t (old t member) (queue t waits)

omit [DecidableEq κ] in
/-- What was executed stays executed. -/
theorem executed_snoc (done : t ∈ executed events) : t ∈ executed (events ++ [e]) := by
  simp only [executed, List.filterMap_append, List.mem_append]
  exact .inl done

/-- The places of the tasks when a worker without a task goes on. -/
theorem placed_update {x : WorkerPhase} (idle : ∀ u, s.workers w ≠ .running u)
    (workers : s'.workers = Function.update s.workers w x) (queue : s'.queue = s.queue)
    (placed : Placed events s t) : Placed (events ++ [e]) s' t := by
  obtain queued | ⟨v, runs⟩ | done := placed
  · exact .inl (queue ▸ queued)
  · have other : v ≠ w := by
      rintro rfl
      exact idle t runs
    exact .inr (.inl ⟨v, by simp [workers, other, runs]⟩)
  · exact .inr (.inr (executed_snoc done))

/-- A worker that has exited did so now or before. -/
theorem exited_update {x : WorkerPhase} (workers : s'.workers = Function.update s.workers w x)
    {v : κ}
    (exited : s'.workers v = .exited) : x = .exited ∨ s.workers v = .exited := by
  rw [workers] at exited
  by_cases same : v = w
  · exact .inl (by simpa [same] using exited)
  · exact .inr (by simpa [same] using exited)

/-- Every step keeps the tasks accounted for. -/
theorem Accounts.step [Nonempty κ] (accounts : Accounts events s) (shape : Shape s)
    (next : Step s e s') :
    Accounts (events ++ [e]) s' := by
  have still : ∀ {w x}, s.workers w ≠ .exited → s.main = .joined →
      ∀ v, Function.update s.workers w x v = .exited := fun up main =>
    absurd (accounts.joined main _) up
  have same : ∀ {t}, Placed events s t → Placed (events ++ [e]) s t := fun placed =>
    placed.imp id (.imp id executed_snoc)
  cases next with
  | enqueue free signals =>
      refine ⟨fun unflagged => ?_, fun t member => ?_, fun t member =>
        ?_, fun w exited t member => ?_,
        accounts.joined⟩
      · exact accounts.unflagged fun flags => unflagged (List.mem_append_left _ flags)
      · obtain old | ⟨⟨⟩, _⟩ := mem_early_snoc member
        · exact Nat.lt_succ_of_lt (accounts.born t old)
        · exact Nat.lt_succ_self _
      · obtain old | ⟨⟨⟩, _⟩ := mem_early_snoc member
        · obtain queued | runs | done := accounts.placed t old
          · exact .inl (List.mem_append_left _ queued)
          · exact .inr (.inl runs)
          · exact .inr (.inr (executed_snoc done))
        · exact .inl (by simp)
      · obtain old | ⟨_, unflagged⟩ := mem_early_snoc member
        · have := accounts.born t old
          simp only [List.mem_append, List.mem_singleton, not_or]
          exact ⟨accounts.left w exited t old, by omega⟩
        · have := (shape.exited w exited).symm.trans (accounts.unflagged unflagged)
          exact absurd this (by decide)
  | lock free outside =>
      exact accounts.keep (by simp) rfl (.inr rfl)
        (fun _ _ => placed_update (by simp [outside]) rfl rfl)
        (fun v exited => .inr ((exited_update rfl exited).resolve_left (by simp))) (fun _ => id)
        (still (by simp [outside]))
  | relock free asleep awake =>
      exact accounts.keep (by simp) rfl (.inr rfl)
        (fun _ _ => placed_update (by simp [asleep]) rfl rfl)
        (fun v exited => .inr ((exited_update rfl exited).resolve_left (by simp))) (fun _ => id)
        (still (by simp [asleep]))
  | test tests =>
      refine accounts.keep (by simp) rfl (.inr rfl)
        (fun _ _ => placed_update (by simp [tests]) rfl rfl)
        (fun v exited => .inr ((exited_update rfl exited).resolve_left ?_)) (fun _ => id)
        (still (by simp [tests]))
      split <;> simp
  | wait waits =>
      exact accounts.keep (by simp) rfl (.inr rfl)
        (fun _ _ => placed_update (by simp [waits]) rfl rfl)
        (fun v exited => .inr ((exited_update rfl exited).resolve_left (by simp))) (fun _ => id)
        (still (by simp [waits]))
  | exit takes none =>
      exact accounts.keep (by simp) rfl (.inr rfl)
        (fun _ _ => placed_update (by simp [takes]) rfl rfl) (fun _ _ => .inl none) (fun _ => id)
        (still (by simp [takes]))
  | @take w t rest takes first =>
      refine accounts.keep (by simp) rfl (.inr rfl) (fun u _ placed => ?_)
        (fun v exited => .inr ((exited_update rfl exited).resolve_left (by simp)))
        (fun u member => first ▸ List.mem_cons_of_mem t member) (still (by simp [takes]))
      obtain queued | ⟨v, runs⟩ | done := placed
      · obtain rfl | later := List.mem_cons.mp (first ▸ queued)
        · exact .inr (.inl ⟨w, by simp⟩)
        · exact .inl later
      · have other : v ≠ w := by
          rintro rfl
          simp [takes] at runs
        exact .inr (.inl ⟨v, by simp [other, runs]⟩)
      · exact .inr (.inr (executed_snoc done))
  | @run w t runs =>
      refine accounts.keep (by simp) rfl (.inr rfl) (fun u _ placed => ?_)
        (fun v exited => .inr ((exited_update rfl exited).resolve_left (by simp))) (fun _ => id)
        (still (by simp [runs]))
      obtain queued | ⟨v, also⟩ | done := placed
      · exact .inl queued
      · by_cases same : v = w
        · obtain rfl : t = u := by simpa [same, runs] using also
          exact .inr (.inr (by simp [executed]))
        · exact .inr (.inl ⟨v, by simp [same, also]⟩)
      · exact .inr (.inr (executed_snoc done))
  | wake =>
      exact accounts.keep (by simp) rfl (.inr rfl) (fun _ _ => same) (fun _ => .inr) (fun _ => id)
        accounts.joined
  | flag =>
      exact accounts.keep (by simp) rfl (.inl rfl) (fun _ _ => same) (fun _ => .inr)
        (fun _ => id) (by simp)
  | broadcast =>
      exact accounts.keep (by simp) rfl (.inr rfl) (fun _ _ => same) (fun _ => .inr)
        (fun _ => id) (by simp)
  | join before all =>
      exact accounts.keep (by simp) rfl (.inr rfl) (fun _ _ => same) (fun _ => .inr)
        (fun _ => id) fun _ => all
  | clear before free =>
      have exited := accounts.joined before
      refine accounts.keep (by simp) rfl (.inr ?_) (fun t early placed => ?_) (fun _ _ => .inl rfl)
        (by simp) (by simp)
      · exact (shape.flagged (by simp [before])).symm
      · obtain queued | ⟨w, runs⟩ | done := placed
        · exact absurd queued (accounts.left (Classical.arbitrary κ) (exited _) t early)
        · exact .inr (.inl ⟨w, runs⟩)
        · exact .inr (.inr (executed_snoc done))

/-- A worker that is not blocked can take a step, unless another has the lock and can. -/
theorem Shape.progress (shape : Shape s) (awake : w ∉ s.notEmpty.waiting)
    (stays : s.workers w ≠ .exited) :
    ∃ e s', e.ofWorker = true ∧ Step s e s' := by
  have inside : ∀ v, (s.workers v).hasLock = true → ∃ e s', e.ofWorker = true ∧ Step s e s' := by
    intro v has
    cases phase : s.workers v with
    | testing => exact ⟨_, _, rfl, .test phase⟩
    | toWait => exact ⟨_, _, rfl, .wait phase⟩
    | taking =>
        cases first : s.queue with
        | nil => exact ⟨_, _, rfl, .exit phase first⟩
        | cons t rest => exact ⟨_, _, rfl, .take phase first⟩
    | outside | asleep | running | exited => simp [phase, WorkerPhase.hasLock] at has
  cases held : s.lock with
  | some v => exact inside v ((shape.lock v).mp held)
  | none =>
      cases phase : s.workers w with
      | outside => exact ⟨_, _, rfl, .lock held phase⟩
      | asleep => exact ⟨_, _, rfl, .relock held phase awake⟩
      | running t => exact ⟨_, _, rfl, .run phase⟩
      | exited => exact absurd phase stays
      | testing | toWait | taking => exact inside w (by simp [phase, WorkerPhase.hasLock])

/-- What shutdown gives: after its broadcast nobody is blocked and some worker can go on until
all have exited, and then the tasks enqueued before have been run. -/
structure ShutsDown (events : List (SchedulerEvent κ)) (s : Scheduler κ) : Prop where
  roused : s.main.hasBroadcast = true → ∀ w, w ∉ s.notEmpty.waiting
  progress : s.main.hasBroadcast = true → (∃ w, s.workers w ≠ .exited) →
    ∃ e s', e.ofWorker = true ∧ Step s e s'
  executes : (∀ w, s.workers w = .exited) → ∀ t ∈ early events, t ∈ executed events

/-- If no worker stands between its test and its wait when shutdown broadcasts, none is
stranded. -/
theorem shutsDown_of_settled [Nonempty κ]
    (run : Run (fun s e s' => Step s e s' ∧ Settled s e) (init : Scheduler κ) events s) :
    ShutsDown events s := by
  have holds : Shape s ∧ Roused s ∧ Accounts events s := by
    refine run.keeps (I := fun events s => Shape s ∧ Roused s ∧ Accounts events s)
      ⟨shape_init, roused_init, accounts_init⟩ ?_
    rintro events s e s' _ ⟨shape, roused, accounts⟩ ⟨next, settled⟩
    exact ⟨shape.step next, roused.step shape next settled, accounts.step shape next⟩
  obtain ⟨shape, roused, accounts⟩ := holds
  refine ⟨fun broadcast w => (roused broadcast w).1, ?_, fun exited t early => ?_⟩
  · rintro broadcast ⟨w, stays⟩
    exact shape.progress (roused broadcast w).1 stays
  · obtain queued | ⟨w, runs⟩ | done := accounts.placed t early
    · exact absurd queued (accounts.left (Classical.arbitrary κ) (exited _) t early)
    · simp [exited w] at runs
    · exact done

/-- Two workers run the two tasks and leave when shutdown has been told. -/
def drained : List (SchedulerEvent Bool) :=
  [.enqueue 0, .enqueue 1, .lock true, .test true, .take true 0, .lock false, .test false,
    .take false 1, .run false 1, .run true 0, .flag, .broadcast, .lock true, .test true, .exit true,
    .lock false, .test false, .exit false]

/-- Two workers, two tasks. -/
theorem shutsDown_of_settled_drained : ∃ s : Scheduler Bool, Run Step init drained s ∧
    (∀ w, s.workers w = .exited) ∧ ∀ t ∈ early drained, t ∈ executed drained := by
  have run : ∃ s, Run (fun s e s' => Step s e s' ∧ Settled s e) (init : Scheduler Bool) drained s ∧
      ∀ w, s.workers w = .exited := by
    refine ⟨_, .cons ⟨.enqueue rfl (.inl ⟨rfl, rfl⟩), by simp [Settled]⟩
      (.cons ⟨.enqueue rfl (.inl ⟨rfl, rfl⟩), by simp [Settled]⟩
      (.cons ⟨.lock rfl rfl, by simp [Settled]⟩
      (.cons ⟨.test rfl, by simp [Settled]⟩
      (.cons ⟨.take rfl rfl, by simp [Settled]⟩
      (.cons ⟨.lock rfl rfl, by simp [Settled]⟩
      (.cons ⟨.test rfl, by simp [Settled]⟩
      (.cons ⟨.take rfl rfl, by simp [Settled]⟩
      (.cons ⟨.run rfl, by simp [Settled]⟩
      (.cons ⟨.run rfl, by simp [Settled]⟩
      (.cons ⟨.flag rfl, by simp [Settled]⟩
      (.cons ⟨.broadcast rfl, fun _ w => by cases w <;> simp⟩
      (.cons ⟨.lock rfl rfl, by simp [Settled]⟩
      (.cons ⟨.test rfl, by simp [Settled]⟩
      (.cons ⟨.exit rfl rfl, by simp [Settled]⟩
      (.cons ⟨.lock rfl rfl, by simp [Settled]⟩
      (.cons ⟨.test rfl, by simp [Settled]⟩
      (.single ⟨.exit rfl rfl, by simp [Settled]⟩))))))))))))))))), fun w => by cases w <;> rfl⟩
  obtain ⟨s, run, exited⟩ := run
  exact ⟨s, run.mono (I := fun _ => True) trivial (fun _ _ _ _ _ => trivial) fun _ _ _ _ next =>
    next.1,
    exited, (shutsDown_of_settled run).executes exited⟩

/-- The flag is written and broadcast between the worker's test and its wait. -/
def overtaken : List (SchedulerEvent Unit) := [.lock (), .test (), .flag, .broadcast, .wait ()]

/-- A worker that goes to sleep behind the wakeup is never woken. -/
theorem overtaken_strands : ∃ s : Scheduler Unit, Run Step init overtaken s ∧ s.main = .joining ∧
    () ∈ s.notEmpty.waiting ∧ ∀ e s', e.ofWorker = true → ¬ Step s e s' := by
  have run : ∃ s : Scheduler Unit, Run Step init overtaken s ∧ s.main = .joining ∧
      () ∈ s.notEmpty.waiting ∧ ∀ w, s.workers w = .asleep :=
    ⟨_, .cons (.lock rfl rfl) (.cons (.test rfl) (.cons (.flag rfl) (.cons (.broadcast rfl)
      (.single (.wait rfl))))), rfl, by decide, fun _ => rfl⟩
  obtain ⟨s, run, joining, blocked, asleep⟩ := run
  refine ⟨s, run, joining, blocked, fun e s' worker next => ?_⟩
  cases next with
  | relock free sleeps awake => exact awake blocked
  | lock free phase | test phase | wait phase | take phase | exit phase | run phase =>
      simp [asleep] at phase
  | _ => simp [ofWorker] at worker

end Scheduler

end Sigil.Runtime
