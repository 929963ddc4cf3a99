import Sigil.Runtime.Channel

/-!
# Channels in generated code

`v = CHANNEL_RECEIVE ch` calls the runtime with a fresh stack buffer and binds what the
buffer holds afterwards, whatever the status. Tasks reach channels through handles, which
are slots of a table; no task is in two calls at once.
-/

namespace Sigil.Runtime

open Flow

/-- Slots of the channel table; slot 0 is never used. -/
def maxChannels : Nat := 4096

/-- The channel table. -/
structure ChannelTable (ι α : Type*) where
  channels : Nat → Option (ChannelState ι α)

/-- What happens in the tasks: a channel is created, a section of a call runs on a channel,
a call on a handle of no channel returns, or a receive ends and its value is bound. -/
inductive TaskEvent (ι α : Type*) where
  | create (i : ι) (handle : Nat)
  | channel (handle : Nat) (event : ChannelEvent ι α)
  | invalid (i : ι) (handle : Nat)
  | bind (i : ι) (handle : Nat) (value : α)

namespace ChannelTable

variable {ι α : Type*}

def empty : ChannelTable ι α := ⟨fun _ => none⟩

/-- `get_channel`. -/
def getChannel (s : ChannelTable ι α) (handle : Nat) : Option (ChannelState ι α) :=
  if handle = 0 ∨ maxChannels ≤ handle then none else s.channels handle

/-- The table with a channel in a slot. -/
def put (s : ChannelTable ι α) (slot : Nat) (ch : ChannelState ι α) : ChannelTable ι α :=
  ⟨Function.update s.channels slot (some ch)⟩

/-- The slot holds the channel put there. -/
@[simp] theorem channels_put_self {s : ChannelTable ι α} {slot : Nat} {ch : ChannelState ι α} :
    (s.put slot ch).channels slot = some ch :=
  Function.update_self ..

/-- Other slots hold what they held. -/
theorem channels_put_of_ne {s : ChannelTable ι α} {slot handle : Nat} {ch : ChannelState ι α}
    (other : handle ≠ slot) : (s.put slot ch).channels handle = s.channels handle :=
  Function.update_of_ne other ..

/-- A second channel put in a slot replaces the first. -/
@[simp] theorem put_put {s : ChannelTable ι α} {slot : Nat} {ch ch' : ChannelState ι α} :
    (s.put slot ch).put slot ch' = s.put slot ch' := by
  simp [put]

/-- The first free slot. -/
def freeSlot (s : ChannelTable ι α) : Option Nat :=
  (List.range' 1 (maxChannels - 1)).find? fun slot => (s.channels slot).isNone

/-- The value a receive binds: the element if one came, else what the buffer held. -/
def loaded (buffer : α) (received : Option α) : α := received.getD buffer

/-- A task is in no call. -/
def Idle (s : ChannelTable ι α) (i : ι) : Prop :=
  ∀ handle ch, s.channels handle = some ch → ch.calls i = none

variable [DecidableEq ι]

/-- The steps of the tasks. The content of a fresh buffer is arbitrary. -/
inductive Step (zero : α) : ChannelTable ι α → TaskEvent ι α → ChannelTable ι α → Prop where
  | create {s : ChannelTable ι α} {i : ι} {slot : Nat} (capacity : Nat) (idle : s.Idle i)
      (found : s.freeSlot = some slot) :
      Step zero s (.create i slot) (s.put slot (.create zero capacity))
  | full {s : ChannelTable ι α} {i : ι} (idle : s.Idle i) (full : s.freeSlot = none) :
      Step zero s (.create i 0) s
  | channel {s : ChannelTable ι α} {handle : Nat} {ch ch' : ChannelState ι α}
      {event : ChannelEvent ι α} (found : s.getChannel handle = some ch)
      (next : ch.Step event ch') (kept : ∀ i value, event ≠ .received i value)
      (idle : ∀ i call, event = .call i call → s.Idle i) :
      Step zero s (.channel handle event) (s.put handle ch')
  | invalid {s : ChannelTable ι α} {i : ι} {handle : Nat} (idle : s.Idle i)
      (none : s.getChannel handle = none) : Step zero s (.invalid i handle) s
  | receive {s : ChannelTable ι α} {i : ι} {handle : Nat} {ch ch' : ChannelState ι α}
      {received : Option α} (buffer : α) (found : s.getChannel handle = some ch)
      (next : ch.Step (.received i received) ch') :
      Step zero s (.bind i handle (loaded buffer received)) (s.put handle ch')
  | receiveInvalid {s : ChannelTable ι α} {i : ι} {handle : Nat} (buffer : α) (idle : s.Idle i)
      (none : s.getChannel handle = none) : Step zero s (.bind i handle (loaded buffer .none)) s

/-- The receive of a step finds an open channel, or one that still holds an element. -/
def Supplied (s : ChannelTable ι α) (e : TaskEvent ι α) : Prop :=
  ∀ i handle value, e = .bind i handle value →
    ∃ ch, s.getChannel handle = some ch ∧ ¬ (ch.channel.count = 0 ∧ ch.channel.closed = true)

end ChannelTable

namespace TaskEvent

variable {ι α : Type*}

/-- The event on one channel, a bound value being taken for an element of the channel. -/
def onChannel (handle : Nat) : TaskEvent ι α → Option (ChannelEvent ι α)
  | channel h event => if h = handle then some event else none
  | bind i h value => if h = handle then some (.received i (some value)) else none
  | _ => none

/-- The history of one channel. -/
def history (handle : Nat) (events : List (TaskEvent ι α)) : List (ChannelEvent ι α) :=
  events.filterMap (onChannel handle)

/-- The values `CHANNEL_SEND` enqueued on a channel. -/
def enqueued (handle : Nat) (events : List (TaskEvent ι α)) : List α :=
  events.filterMap fun
    | channel h event => if h = handle then event.acceptedValue else none
    | _ => none

/-- The values `CHANNEL_RECEIVE` bound from a channel. -/
def bound (handle : Nat) (events : List (TaskEvent ι α)) : List α :=
  events.filterMap fun
    | bind _ h value => if h = handle then some value else none
    | _ => none

/-- Every bound value is an element that was sent on its channel, and no element is bound
twice. -/
def OnlySent (events : List (TaskEvent ι α)) : Prop :=
  ∀ handle, (bound handle events).Subperm (enqueued handle events)

variable {handle : Nat} {events : List (TaskEvent ι α)} {e : TaskEvent ι α}

/-- One more event is added to the history of its channel. -/
theorem history_snoc : history handle (events ++ [e]) =
    history handle events ++ (e.onChannel handle).toList := by
  cases found : e.onChannel handle <;> simp [history, found]

/-- The values put in a channel are those its history accepts. -/
theorem enqueued_eq_accepted :
    enqueued handle events = ChannelEvent.accepted (history handle events) := by
  unfold enqueued ChannelEvent.accepted history
  rw [List.filterMap_filterMap]
  congr 1
  funext e
  cases e with
  | create | invalid => rfl
  | channel h event => by_cases same : h = handle <;> simp [onChannel, same]
  | bind i h value => by_cases same :
    h = handle <;> simp [onChannel, same, ChannelEvent.acceptedValue]

end TaskEvent

namespace ChannelTable

open ChannelEvent TaskEvent

variable {ι α : Type*} [DecidableEq ι] {zero : α} {events : List (TaskEvent ι α)}
  {s t : ChannelTable ι α} {e : TaskEvent ι α} {handle slot : Nat}

/-- The history of each channel is a run of it, and what it delivered is what was bound. -/
structure Traced (zero : α) (events : List (TaskEvent ι α)) (s : ChannelTable ι α) : Prop where
  running : ∀ handle ch, s.channels handle = some ch →
    ∃ capacity, Run ChannelState.Step (.create zero capacity) (history handle events) ch
  unused : ∀ handle, s.channels handle = none → history handle events = []
  bound : ∀ handle, TaskEvent.bound handle events = delivered (history handle events)

/-- The empty table is traced by no events. -/
theorem Traced.start : Traced zero [] (empty : ChannelTable ι α) where
  running _ _ found := by simp [empty] at found
  unused _ _ := rfl
  bound _ := rfl

/-- A step that touches no channel. -/
theorem Traced.quiet (traced : Traced zero events s) (off : ∀ handle, e.onChannel handle = none)
    (binds : ∀ handle, TaskEvent.bound handle [e] = []) : Traced zero (events ++ [e]) s := by
  have same : ∀ handle, history handle (events ++ [e]) = history handle events := by
    intro handle
    simp [history_snoc, off]
  refine ⟨fun handle ch found => ?_, fun handle none => ?_, fun handle => ?_⟩
  · rw [same]
    exact traced.running handle ch found
  · rw [same]
    exact traced.unused handle none
  · have later := binds handle
    unfold TaskEvent.bound at later ⊢
    rw [same, List.filterMap_append, later, List.append_nil]
    exact traced.bound handle

/-- A step of one channel. -/
theorem Traced.onChannel (traced : Traced zero events s) {ch ch' : ChannelState ι α}
    {event : ChannelEvent ι α} (found : s.channels slot = some ch) (next : ch.Step event ch')
    (on : ∀ handle, e.onChannel handle = if slot = handle then some event else none)
    (binds : ∀ handle, TaskEvent.bound handle [e] =
      if slot = handle then event.deliveredValue.toList else []) :
    Traced zero (events ++ [e]) (s.put slot ch') := by
  refine ⟨fun handle c known => ?_, fun handle none => ?_, fun handle => ?_⟩
  · rw [history_snoc, on]
    by_cases same : slot = handle
    · subst same
      rw [channels_put_self, Option.some.injEq] at known
      subst known
      obtain ⟨capacity, run⟩ := traced.running slot ch found
      exact ⟨capacity, by simpa using run.snoc next⟩
    · rw [channels_put_of_ne (Ne.symm same)] at known
      simpa [same] using traced.running handle c known
  · by_cases same : slot = handle
    · simp [same] at none
    · rw [channels_put_of_ne (Ne.symm same)] at none
      simpa [history_snoc, on, same] using traced.unused handle none
  · have here := binds handle
    have before := traced.bound handle
    unfold TaskEvent.bound at here before ⊢
    rw [List.filterMap_append, before, here, history_snoc, on]
    by_cases same : slot = handle <;> simp [same]

omit [DecidableEq ι] in
/-- A handle that finds a channel names its slot. -/
theorem getChannel_some {ch : ChannelState ι α} (found : s.getChannel handle = some ch) :
    s.channels handle = some ch := by
  unfold getChannel at found
  split at found
  · cases found
  · exact found

omit [DecidableEq ι] in
/-- A free slot holds no channel. -/
theorem freeSlot_some (found : s.freeSlot = some slot) : s.channels slot = none := by
  simpa using List.find?_some found

/-- Every supplied step keeps the table traced. -/
theorem Traced.step (traced : Traced zero events s) (next : s.Step zero e t)
    (supplied : s.Supplied e) : Traced zero (events ++ [e]) t := by
  cases next with
  | @create i slot capacity idle found =>
      have free := freeSlot_some found
      have quiet := traced.quiet (e := .create i slot) (fun _ => rfl) fun _ => rfl
      refine ⟨fun handle c known => ?_, fun handle none => ?_, quiet.bound⟩
      · by_cases same : handle = slot
        · subst same
          rw [channels_put_self, Option.some.injEq] at known
          subst known
          exact ⟨capacity, quiet.unused handle free ▸ .nil⟩
        · rw [channels_put_of_ne same] at known
          exact quiet.running handle c known
      · by_cases same : handle = slot
        · simp [same] at none
        · rw [channels_put_of_ne same] at none
          exact quiet.unused handle none
  | full idle full => exact traced.quiet (fun _ => rfl) fun _ => rfl
  | @channel handle ch ch' event found next kept idle =>
      refine traced.onChannel (getChannel_some found) next (fun _ => rfl) fun h => ?_
      have silent : event.deliveredValue = none := by
        cases event with
        | received i value => exact absurd rfl (kept i value)
        | _ => rfl
      simp [TaskEvent.bound, silent]
  | invalid idle none => exact traced.quiet (fun _ => rfl) fun _ => rfl
  | @receive i handle ch ch' received buffer found next =>
      obtain ⟨ch₁, found₁, some⟩ := supplied i handle _ rfl
      obtain rfl : ch = ch₁ := Option.some.inj (found.symm.trans found₁)
      cases received with
      | none => exact absurd next.closed_of_drained.symm some
      | some value =>
          refine traced.onChannel (getChannel_some found) next (fun _ => rfl) fun h => ?_
          by_cases same : handle = h <;> simp [TaskEvent.bound, same, loaded, deliveredValue]
  | @receiveInvalid i handle buffer idle none =>
      obtain ⟨ch, found, _⟩ := supplied i handle _ rfl
      rw [none] at found
      cases found

/-- While every receive finds an open channel or an element, each bound value is an element
that was sent on its channel, and no other receive bound it. -/
theorem onlySent_of_supplied
    (run : Run (fun s e t => s.Step zero e t ∧ s.Supplied e) (empty : ChannelTable ι α) events s) :
    OnlySent events := by
  have traced : Traced zero events s :=
    run.keeps .start fun _ _ _ _ _ traced next => traced.step next.1 next.2
  intro handle
  rw [traced.bound, enqueued_eq_accepted]
  cases found : s.channels handle with
  | none => rw [traced.unused handle found]
            exact List.Subperm.refl _
  | some ch =>
      obtain ⟨capacity, run⟩ := traced.running handle ch found
      have ledger := ChannelState.Ledger.of_run run
      have front : delivered (history handle events) <+: accepted (history handle events) :=
        ⟨_, ledger.fifo.symm⟩
      exact front.sublist.subperm

omit [DecidableEq ι]

/-- The first slot of the empty table is free. -/
theorem freeSlot_empty : (empty : ChannelTable ι α).freeSlot = some 1 := rfl

/-- In the empty table every thread is idle. -/
theorem idle_empty {i : ι} : (empty : ChannelTable ι α).Idle i := by
  intro handle ch found
  simp [empty] at found

/-- A thread outside a call stays idle when a channel is put. -/
theorem Idle.put {i : ι} {ch : ChannelState ι α} (idle : s.Idle i) (free : ch.calls i = none) :
    (s.put slot ch).Idle i := by
  intro handle c found
  by_cases same : handle = slot
  · subst same
    rw [channels_put_self, Option.some.injEq] at found
    exact found ▸ free
  · rw [channels_put_of_ne same] at found
    exact idle handle c found

/-- The channel put in the first slot is found there. -/
@[simp] theorem getChannel_put_one {ch : ChannelState ι α} :
    (s.put 1 ch).getChannel 1 = some ch := by
  simp [getChannel, maxChannels]

/-- Two values go through the first channel, one after the other. -/
def passOn : List (TaskEvent Nat Nat) :=
  [.create 0 1, .channel 1 (.call 0 (.send 7)), .channel 1 (.sent 0 7 true),
    .channel 1 (.call 0 .receive), .bind 0 1 7, .channel 1 (.call 0 (.send 8)),
    .channel 1 (.sent 0 8 true), .channel 1 (.call 0 .receive), .bind 0 1 8]

/-- Two values on one channel, received in turn. -/
theorem onlySent_of_supplied_passOn : OnlySent passOn := by
  have run : ∃ s, Run (fun s e t => ChannelTable.Step 0 s e t ∧ s.Supplied e) empty passOn s := by
    refine ⟨_, .cons ⟨.create 1 idle_empty freeSlot_empty, by simp [Supplied]⟩
      (.cons ⟨.channel getChannel_put_one (.call rfl) (by simp) ?_, by simp [Supplied]⟩
      (.cons ⟨.channel getChannel_put_one (.accept (by simp) (by simp [ChannelState.create]) rfl
        (.inl ⟨rfl, rfl⟩)) (by simp) (by simp), by simp [Supplied]⟩
      (.cons ⟨.channel getChannel_put_one (.call (by simp)) (by simp) ?_, by simp [Supplied]⟩
      (.cons ⟨.receive 0 getChannel_put_one (.deliver (by simp) (by simp [ChannelState.create]) rfl
        (.inl ⟨rfl, rfl⟩)), ?_⟩
      (.cons ⟨.channel getChannel_put_one (.call (by simp)) (by simp) ?_, by simp [Supplied]⟩
      (.cons ⟨.channel getChannel_put_one (.accept (by simp) (by simp [ChannelState.create]) rfl
        (.inl ⟨rfl, rfl⟩)) (by simp) (by simp), by simp [Supplied]⟩
      (.cons ⟨.channel getChannel_put_one (.call (by simp)) (by simp) ?_, by simp [Supplied]⟩
      (.single ⟨.receive 0 getChannel_put_one
        (.deliver (by simp) (by simp [ChannelState.create]) rfl
        (.inl ⟨rfl, rfl⟩)), ?_⟩))))))))⟩
    · exact fun i call _ => (idle_empty.put rfl)
    · rintro i call same
      cases same
      simpa using idle_empty.put (by simp)
    · rintro i handle value same
      cases same
      exact ⟨_, getChannel_put_one, by simp [ChannelState.create, Channel.create]⟩
    · rintro i call same
      cases same
      simpa using idle_empty.put (by simp)
    · rintro i call same
      cases same
      simpa using idle_empty.put (by simp)
    · rintro i handle value same
      cases same
      exact ⟨_, getChannel_put_one, by simp [ChannelState.create, Channel.create]⟩
  obtain ⟨s, run⟩ := run
  exact onlySent_of_supplied run

/-- A receive on a closed channel that never held a value. -/
def receiveClosed : List (TaskEvent Nat Nat) :=
  [.create 0 1, .channel 1 (.call 0 .close), .channel 1 (.closed 0),
    .channel 1 (.call 0 .receive), .bind 0 1 99]

/-- A receive on a closed channel binds what nobody has sent. -/
theorem receiveClosed_binds_unsent :
    (∃ s, Run (ChannelTable.Step 0) empty receiveClosed s) ∧ ¬ OnlySent receiveClosed := by
  refine ⟨⟨_, .cons (.create 1 idle_empty freeSlot_empty)
    (.cons (.channel getChannel_put_one (.call rfl) (by simp) ?_)
    (.cons (.channel getChannel_put_one (.close (by simp)) (by simp) (by simp))
    (.cons (.channel getChannel_put_one (.call (by simp)) (by simp) ?_)
    (.single (.receive 99 getChannel_put_one (.drained (by simp) (by simp [ChannelState.create])
      rfl))))))⟩, ?_⟩
  · exact fun i call _ => (idle_empty.put rfl)
  · rintro i call same
    cases same
    simpa using idle_empty.put (by simp)
  · intro sent
    exact absurd (sent 1).length_le (by decide)

end ChannelTable

end Sigil.Runtime
