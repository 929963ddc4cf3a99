import Sigil.Runtime.Handles

/-!
# Execution of tasks

When no handle is waited for twice, a task stays in its slot until its one wait reaps it. Then
no pointer goes stale, and a wait returns after the one run of its task's function.
-/

namespace Sigil.Runtime

open Flow

namespace PoolEvent

variable {ι κ α : Type*} {events : List (PoolEvent ι κ α)} {e : PoolEvent ι κ α}

/-- The SPAWNs whose handles an event passes to a wait. -/
def waitsFor : PoolEvent ι κ α → List Nat
  | wait _ target => target.toList
  | waitAny _ targets => targets.reduceOption
  | _ => []

/-- The SPAWNs waited for in a history, once for each time their handles are passed. -/
def waited (events : List (PoolEvent ι κ α)) : List Nat := events.flatMap waitsFor

def reapedTask : PoolEvent ι κ α → Option Nat
  | reap _ _ t => some t
  | _ => none

/-- The tasks removed from the table in a history. -/
def reaped (events : List (PoolEvent ι κ α)) : List Nat := events.filterMap reapedTask

/-- One more event waits for its own handles. -/
theorem waited_snoc : waited (events ++ [e]) = waited events ++ e.waitsFor := by
  simp [waited]

/-- One more event reaps its own task. -/
theorem reaped_snoc : reaped (events ++ [e]) = reaped events ++ e.reapedTask.toList := by
  cases found : e.reapedTask <;> simp [reaped, found]

end PoolEvent

namespace Pool

open PoolEvent

variable {ι κ α : Type*} {blank : α} {events : List (PoolEvent ι κ α)} {s s' : Pool ι κ α}
  {e : PoolEvent ι κ α} {stage : Nat → Stage ι κ} {i : ι} {target : Option Nat} {t h : Nat}

/-- The SPAWNs a caller is waiting for. -/
def awaits (s : Pool ι κ α) (i : ι) : List (Option Nat) :=
  match s.callers i with
  | .waiting target | .holding target _ => [target]
  | .waitingAny targets => targets
  | _ => []

/-- A task is in its slot until the only wait for it reaps it. -/
structure Exclusive (events : List (PoolEvent ι κ α)) (s : Pool ι κ α) : Prop where
  born : ∀ t ∈ waited events, t < s.created
  unreaped : ∀ t < s.created, t ∉ reaped events → s.table (s.handle t) = some t
  removed : ∀ t ∈ reaped events, t < s.created ∧ t ∈ waited events ∧ ∀ h, s.table h ≠ some t
  once : (reaped events).Nodup
  awaiting : ∀ i t, some t ∈ s.awaits i → t ∈ waited events ∧ t ∉ reaped events ∧
    ∀ j, some t ∈ s.awaits j → j = i

/-- In a new pool no task is waited for. -/
theorem exclusive_init : Exclusive [] (init blank : Pool ι κ α) where
  born := by simp [waited]
  unreaped := by simp [init]
  removed := by simp [reaped]
  once := by simp [reaped]
  awaiting := by simp [init, awaits]

/-- A thread that holds a task waits for its handle. -/
theorem Holds.awaits (holds : s.Holds i target t) : s.awaits i = [target] := by
  obtain ⟨waits, _⟩ | ⟨inside, _⟩ := holds
  · simp [Pool.awaits, waits]
  · simp [Pool.awaits, inside]

/-- A thread that has found a task waits for its handle. -/
theorem Finds.awaits (finds : s.Finds i target t) : target ∈ s.awaits i := by
  obtain ⟨_, before, after, waits, _⟩ := finds
  simp [Pool.awaits, waits]

/-- The slot of a caller's handle has the task it waits for. -/
theorem Exclusive.own (exclusive : Exclusive events s) (seated : Seated s) {u : Option Nat}
    (waits : u ∈ s.awaits i) (entry : s.table (s.handleOf u) = some t) : u = some t := by
  cases u with
  | none => exact absurd (seated.seat _ _ entry).1 (Nat.lt_irrefl 0)
  | some u =>
      obtain ⟨asked, unreaped, _⟩ := exclusive.awaiting i u waits
      have own := exclusive.unreaped u (exclusive.born u asked) unreaped
      exact own.symm.trans entry

/-- A step that adds no task and removes none, and in which nobody begins to wait. -/
theorem Exclusive.quiet (exclusive : Exclusive events s) (created : s'.created = s.created)
    (table : s'.table = s.table) (handle : s'.handle = s.handle)
    (waits : e.waitsFor = []) (reaps : e.reapedTask = none)
    (awaits : ∀ i t, some t ∈ s'.awaits i → some t ∈ s.awaits i) :
      Exclusive (events ++ [e]) s' := by
  have sameWaited : waited (events ++ [e]) = waited events := by simp [waited_snoc, waits]
  have sameReaped : reaped (events ++ [e]) = reaped events := by simp [reaped_snoc, reaps]
  constructor
  · rw [sameWaited, created]
    exact exclusive.born
  · rw [sameReaped, created, table, handle]
    exact exclusive.unreaped
  · rw [sameReaped, sameWaited, created, table]
    exact exclusive.removed
  · rw [sameReaped]
    exact exclusive.once
  · rw [sameReaped, sameWaited]
    intro i t member
    obtain ⟨asked, unreaped, only⟩ := exclusive.awaiting i t (awaits i t member)
    exact ⟨asked, unreaped, fun j other => only j (awaits j t other)⟩

/-- Whom a caller waits for after a change of its own phase. -/
theorem awaits_call [DecidableEq ι] {c : Caller} {j : ι} : (s.call i c).awaits j =
    if j = i then (match c with
      | .waiting target | .holding target _ => [target]
      | .waitingAny targets => targets
      | _ => []) else s.awaits j := by
  by_cases same : j = i
  · subst same
    simp [awaits]
  · simp [awaits, same]

/-- A SPAWN keeps waits exclusive. -/
theorem Exclusive.spawn [DecidableEq ι] (exclusive : Exclusive events s) (seated : Seated s)
    (work : α) :
    Exclusive (events ++ [.insert i s.created work])
      ((s.inserted work).call i (.spawning s.created)) := by
  obtain ⟨new, old⟩ := seated.table_inserted work
  have sameWaited : waited (events ++ [.insert i s.created work]) = waited events := by
    simp [waited_snoc, waitsFor]
  have sameReaped : reaped (events ++ [.insert i s.created work]) = reaped events := by
    simp [reaped_snoc, reapedTask]
  refine ⟨fun t asked => ?_, fun t born unreaped => ?_, fun t gone => ?_, ?_, fun j t member => ?_⟩
  · have := exclusive.born t (sameWaited ▸ asked)
    simp only [call_created, inserted_created]
    omega
  · rw [sameReaped] at unreaped
    by_cases same : t = s.created
    · subst same
      exact new
    · have before : t < s.created := by
        simp only [call_created, inserted_created] at born
        omega
      exact old t before (exclusive.unreaped t before unreaped)
  · obtain ⟨born, asked, absent⟩ := exclusive.removed t (sameReaped ▸ gone)
    refine ⟨Nat.lt_succ_of_lt born, sameWaited ▸ asked, fun h entry => ?_⟩
    by_cases slot : h = s.slot.1
    · obtain rfl : s.created = t := by simpa [slot] using entry
      exact Nat.lt_irrefl _ born
    · exact absent h (by simpa [slot] using entry)
  · rw [sameReaped]
    exact exclusive.once
  · rw [sameWaited, sameReaped]
    have before : ∀ k, some t ∈ ((s.inserted work).call i (.spawning s.created)).awaits k →
        some t ∈ s.awaits k := by
      intro k waits
      rw [awaits_call] at waits
      split at waits
      · simp at waits
      · exact waits
    obtain ⟨asked, unreaped, only⟩ := exclusive.awaiting j t (before j member)
    exact ⟨asked, unreaped, fun k other => only k (before k other)⟩

/-- A caller begins to wait for SPAWNs that nobody has waited for. -/
theorem Exclusive.ask [DecidableEq ι] (exclusive : Exclusive events s) {c : Caller}
    (targets : List (Option Nat)) (awaits : (s.call i c).awaits i = targets)
    (asks : e.waitsFor = targets.reduceOption) (reaps : e.reapedTask = none)
    (known : ∀ t, some t ∈ targets → t < s.created) (once : (waited (events ++ [e])).Nodup) :
    Exclusive (events ++ [e]) (s.call i c) := by
  rw [waited_snoc, asks] at once
  have fresh : ∀ t, some t ∈ targets → t ∉ waited events := by
    intro t member before
    exact (List.nodup_append.mp once).2.2 t before t (List.reduceOption_mem_iff.mpr member) rfl
  have sameReaped : reaped (events ++ [e]) = reaped events := by simp [reaped_snoc, reaps]
  have inWaited : ∀ t, t ∈ waited (events ++ [e]) ↔ t ∈ waited events ∨ some t ∈ targets := by
    intro t
    rw [waited_snoc, asks, List.mem_append, List.reduceOption_mem_iff]
  have elsewhere : ∀ j, j ≠ i → (s.call i c).awaits j = s.awaits j := by
    intro j other
    rw [awaits_call, if_neg other]
  refine ⟨fun t asked => ?_, ?_, fun t gone => ?_, ?_, fun j t member => ?_⟩
  · exact ((inWaited t).mp asked).elim (exclusive.born t) (known t)
  · rw [sameReaped]
    exact exclusive.unreaped
  · obtain ⟨born, asked, absent⟩ := exclusive.removed t (sameReaped ▸ gone)
    exact ⟨born, (inWaited t).mpr (.inl asked), absent⟩
  · rw [sameReaped]
    exact exclusive.once
  · rw [inWaited, sameReaped]
    by_cases mine : j = i
    · subst mine
      rw [awaits] at member
      refine ⟨.inr member, fun gone => fresh t member (exclusive.removed t gone).2.1,
        fun k other => ?_⟩
      by_contra apart
      rw [elsewhere k apart] at other
      exact fresh t member (exclusive.awaiting k t other).1
    · rw [elsewhere j mine] at member
      obtain ⟨asked, unreaped, only⟩ := exclusive.awaiting j t member
      refine ⟨.inl asked, unreaped, fun k other => ?_⟩
      by_cases here : k = i
      · subst here
        rw [awaits] at other
        exact absurd asked (fresh t other)
      · exact only k (elsewhere k here ▸ other)

/-- The one wait for a task removes it from the table. -/
theorem Exclusive.reap [DecidableEq ι] (exclusive : Exclusive events s) (seated : Seated s)
    (waits : some t ∈ s.awaits i) {completed : Nat → CondVar ι} {anyCompleted : CondVar ι} :
    Exclusive (events ++ [.reap i (some t) t])
      (({ s with completed, anyCompleted }.removed (s.handle t)).call i (.reaping (some t) t)) := by
  obtain ⟨asked, unreaped, only⟩ := exclusive.awaiting i t waits
  have born := exclusive.born t asked
  have entry := exclusive.unreaped t born unreaped
  have sameWaited : waited (events ++ [.reap i (some t) t]) = waited events := by
    simp [waited_snoc, waitsFor]
  have inReaped : ∀ u, u ∈ reaped (events ++ [.reap i (some t) t]) ↔ u ∈ reaped events ∨ u = t := by
    intro u
    simp [reaped_snoc, reapedTask]
  have kept : ∀ {j u}, some u ∈
      (({ s with completed, anyCompleted }.removed (s.handle t)).call i
        (.reaping (some t) t)).awaits j →
      j ≠ i ∧ some u ∈ s.awaits j := by
    intro j u member
    rw [awaits_call] at member
    split at member
    · simp at member
    · exact ⟨‹_›, member⟩
  refine ⟨?_, fun u born' left => ?_, fun u gone => ?_, ?_, fun j u member => ?_⟩
  · rw [sameWaited]
    exact exclusive.born
  · rw [inReaped, not_or] at left
    have own := exclusive.unreaped u born' left.1
    have other : s.handle u ≠ s.handle t := by
      intro same
      rw [same, entry, Option.some.injEq] at own
      exact left.2 own.symm
    exact (Function.update_of_ne other _ _).trans own
  · rw [sameWaited]
    obtain before | rfl := (inReaped u).mp gone
    · obtain ⟨born', asked', absent⟩ := exclusive.removed u before
      exact ⟨born', asked', fun h left => absent h (table_removed left).1⟩
    · refine ⟨born, asked, fun h left => ?_⟩
      obtain ⟨before, other⟩ := table_removed left
      exact other (seated.seat h u before).2.2.1.symm
  · rw [reaped_snoc]
    exact List.nodup_append.mpr ⟨exclusive.once, List.nodup_singleton t, by
      rintro u before v last rfl
      exact unreaped (List.mem_singleton.mp last ▸ before)⟩
  · obtain ⟨apart, before⟩ := kept member
    obtain ⟨asked', unreaped', only'⟩ := exclusive.awaiting j u before
    rw [sameWaited, inReaped]
    refine ⟨asked', ?_, fun k other => only' k (kept other).2⟩
    rintro (gone | rfl)
    · exact unreaped' gone
    · exact apart (only j before)

/-- A caller that reaps a task was waiting for it. -/
theorem Exclusive.reaper [DecidableEq ι] [DecidableEq κ] (exclusive : Exclusive events s)
    (seated : Seated s) (matched : Matched s) (next : Step s (.reap i target t) s') :
    target = some t ∧ some t ∈ s.awaits i := by
  have own : target = some t ∧ target ∈ s.awaits i := by
    cases next with
    | reap holds done =>
        have waits : target ∈ s.awaits i := by simp [holds.awaits]
        obtain ⟨_, found⟩ | ⟨inside, _⟩ := holds
        · exact ⟨exclusive.own seated waits (seated.lookup_iff.mp found), waits⟩
        · exact ⟨matched.holding i target t inside, waits⟩
    | reapAny finds done =>
        have waits := finds.awaits
        obtain ⟨_, _, _, _, _, found⟩ := finds
        exact ⟨exclusive.own seated waits (seated.lookup_iff.mp found), waits⟩
  obtain ⟨rfl, waits⟩ := own
  exact ⟨rfl, waits⟩

/-- Every step keeps waits exclusive. -/
theorem Exclusive.step [DecidableEq ι] [DecidableEq κ] (exclusive : Exclusive events s)
    (seated : Seated s)
    (matched : Matched s) (next : Step s e s') (once : (waited (events ++ [e])).Nodup) :
    Exclusive (events ++ [e]) s' := by
  cases next with
  | insert work free => exact exclusive.spawn seated work
  | @wait i target free known =>
      refine exclusive.ask [target] (by simp [awaits_call]) ?_ rfl ?_ once
      · cases target <;> rfl
      · exact fun t member => (known t (by simpa [eq_comm] using member)).1
  | @waitAny i targets free known =>
      exact exclusive.ask targets (by simp [awaits_call]) rfl rfl
        (fun t member => (known t member).1) once
  | @reap i target t holds done =>
      obtain ⟨rfl, waits⟩ := exclusive.reaper seated matched (.reap holds done)
      exact exclusive.reap seated waits
  | @reapAny i target t finds done =>
      obtain ⟨rfl, waits⟩ := exclusive.reaper seated matched (.reapAny finds done)
      exact exclusive.reap seated waits
  | @block i target t holds =>
      refine exclusive.quiet rfl rfl rfl rfl rfl fun j u member => ?_
      rw [awaits_call] at member
      split at member
      next same => rw [same, holds.awaits]; exact member
      next => exact member
  | @enqueue i | @missing i | @free i =>
      refine exclusive.quiet rfl rfl rfl rfl rfl fun j u member => ?_
      rw [awaits_call] at member
      split at member
      next => simp at member
      next => exact member
  | _ => exact exclusive.quiet rfl rfl rfl rfl rfl fun _ _ => id

/-- In a matched state the handle waited for is that of the task held. -/
theorem Matched.awaits (matched : Matched s) (holds : s.callers i = .holding target t) :
    some t ∈ s.awaits i := by
  obtain rfl := matched.holding i target t holds
  simp [Pool.awaits, holds]

/-- With one wait for each task, nobody else is blocked on a task that is reaped. -/
theorem Exclusive.alone [DecidableEq ι] [DecidableEq κ] (exclusive : Exclusive events s)
    (seated : Seated s) (matched : Matched s) (next : Step s e s') : Alone s e := by
  rintro i target t rfl j target' other holds
  obtain ⟨_, waits⟩ := exclusive.reaper seated matched next
  exact other ((exclusive.awaiting i t waits).2.2 j (matched.awaits holds))

/-- With one wait for each task, a slot still has the task whose handle is looked up. -/
theorem Exclusive.current (exclusive : Exclusive events s) (seated : Seated s) : Current s e := by
  intro i _ u member t entry
  refine exclusive.own (i := i) seated ?_ entry
  unfold lookedUp at member
  unfold awaits
  split at member <;> simp_all

/-- The invariants of a run in which no handle is waited for twice. -/
structure Served (events : List (PoolEvent ι κ α)) (s : Pool ι κ α) : Prop where
  sane : Sane events s
  present : Present s
  matched : Matched s
  exclusive : Exclusive events s

/-- In a run in which no handle is waited for twice every wait is served. -/
theorem served_of_run [DecidableEq ι] [DecidableEq κ] (run : Run Step (init blank) events s)
    (once : (waited events).Nodup) : Served events s := by
  refine run.keeps (I := fun events s => (waited events).Nodup → Served events s)
    (fun _ => ⟨sane_init, present_init, matched_init, exclusive_init⟩) ?_ once
  intro events s e s' _ holds next once
  have before : (waited events).Nodup := by
    rw [waited_snoc] at once
    exact once.of_append_left
  obtain ⟨sane, present, matched, exclusive⟩ := holds before
  have alone := exclusive.alone sane.seated matched next
  exact ⟨sane.step next alone, present.step sane next,
    matched.step sane.seated next (exclusive.current sane.seated),
    exclusive.step sane.seated matched next once⟩

/-- The function of a task that has run has run once, with the arguments it was spawned with. -/
theorem Lives.run_once (lives : Lives events s stage) (ran : (stage t).hasRun) :
    ∃ work, worksGiven t events = [work] ∧ worksRun t events = [work] := by
  have born : stage t ≠ .unborn := by
    intro unborn
    simp [unborn, Stage.hasRun] at ran
  exact ⟨(s.task t).work, lives.given t born, by simp [lives.worked, ran]⟩

/-- A finished task has run the work it was given. -/
theorem Lives.run_of_finished (lives : Lives events s stage) (finished : s.Finished t) :
    ∃ work, worksGiven t events = [work] ∧ worksRun t events = [work] := by
  have done := (lives.place t .done).mp finished
  exact lives.run_once (by simp [done, Stage.hasRun])

/-- Tasks that are not reaped have handles of their own, none of them zero. -/
theorem Exclusive.handles (exclusive : Exclusive events s) (seated : Seated s) {u : Nat}
    (born : t < s.created) (unreaped : t ∉ reaped events) : s.handle t ≠ 0 ∧
      (u < s.created → u ∉ reaped events → s.handle u = s.handle t → u = t) := by
  have own := exclusive.unreaped t born unreaped
  refine ⟨Nat.ne_of_gt (seated.seat _ t own).1, fun born' unreaped' same => ?_⟩
  have other := exclusive.unreaped u born' unreaped'
  rw [same, own, Option.some.injEq] at other
  exact other.symm

/-- Each task is run once before a wait for it returns, has a handle of its own until it is
reaped, and is removed from the table once. -/
structure Executes (events : List (PoolEvent ι κ α)) (s : Pool ι κ α) : Prop where
  once : ∀ t, worksRun t events = [] ∨
    ∃ work, worksGiven t events = [work] ∧ worksRun t events = [work]
  served : ∀ front e later i t, events = front ++ e :: later →
    (e = .missing i (some t) ∨ ∃ t', e = .free i (some t) t') →
      ∃ work, worksGiven t front = [work] ∧ worksRun t front = [work]
  nonzero : ∀ t < s.created, t ∉ reaped events → s.handle t ≠ 0
  distinct : ∀ t < s.created, ∀ u < s.created, t ∉ reaped events → u ∉ reaped events →
    s.handle u = s.handle t → u = t
  removed : (reaped events).Nodup

/-- Runs in which no handle is waited for twice execute their tasks. -/
theorem executes_of_run [DecidableEq ι] [DecidableEq κ] (run : Run Step (init blank) events s)
    (once : (waited events).Nodup) : Executes events s := by
  have served := served_of_run run once
  obtain ⟨stage, lives⟩ := served.sane.lives
  have seated := served.sane.seated
  refine ⟨fun t => ?_, ?_, ?_, ?_, served.exclusive.once⟩
  · by_cases ran : (stage t).hasRun
    · exact .inr (lives.run_once ran)
    · exact .inl (by simp [lives.worked, ran])
  · rintro front e later i t rfl returns
    obtain ⟨m, m', before, next, _⟩ := run.at_event
    have once' : (waited front).Nodup := by
      simp only [waited, List.flatMap_append] at once
      exact once.of_append_left
    obtain ⟨sane, present, matched, exclusive⟩ := served_of_run before once'
    obtain ⟨_, lives⟩ := sane.lives
    have own := ownTask_of_current sane present matched next (exclusive.current sane.seated)
    exact lives.run_of_finished (own.returns i t returns)
  · exact fun t born unreaped => (served.exclusive.handles (u := t) seated born unreaped).1
  · exact fun t born u born' unreaped unreaped' =>
      (served.exclusive.handles seated born unreaped).2 born' unreaped'

/-- Two tasks, both waited for. -/
theorem executes_of_run_awaitedBoth : ∃ s : Pool Nat Nat Nat,
    Run Step (init 0) (awaitedBoth ++ [.reap 0 (some 0) 0, .free 0 (some 0) 0]) s ∧
      Executes (awaitedBoth ++ [.reap 0 (some 0) 0, .free 0 (some 0) 0]) s := by
  have run : ∃ s : Pool Nat Nat Nat,
      Run Step (init 0) (awaitedBoth ++ [.reap 0 (some 0) 0, .free 0 (some 0) 0]) s := by
    refine ⟨_, .cons (.insert 7 rfl)
      (.cons (.enqueue rfl (.inl ⟨rfl, rfl⟩))
      (.cons (.insert 8 rfl)
      (.cons (.enqueue rfl (.inl ⟨rfl, rfl⟩))
      (.cons (.dequeue rfl (by decide) rfl)
      (.cons (.start rfl)
      (.cons (.run rfl)
      (.cons (.complete rfl)
      (.cons (.wait rfl ?_)
      (.cons (.wait rfl ?_)
      (.cons (.reap (.inl ⟨rfl, rfl⟩) rfl)
      (.single (.free rfl))))))))))))⟩
    · rintro t ⟨⟩
      refine ⟨by decide, fun i => ?_⟩
      by_cases here : i = 0 <;> simp [here, init]
    · rintro t ⟨⟩
      refine ⟨by decide, fun i => ?_⟩
      by_cases second : i = 1
      · simp [second]
      · by_cases first : i = 0 <;> simp [init, *]
  obtain ⟨s, run⟩ := run
  exact ⟨s, run, executes_of_run run (by decide)⟩

end Pool

end Sigil.Runtime
