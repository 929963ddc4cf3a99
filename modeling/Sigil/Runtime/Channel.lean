import Sigil.Flow.CondVar
import Sigil.Flow.Ring
import Sigil.Flow.Runs

/-!
# Channels

A bounded channel with any number of senders and receivers. A step is one lock-protected
section of a call: it ends in a wait on a condition variable or in the return of the call.
-/

namespace Sigil.Runtime

open Flow

/-- The record of a channel; its elements are `count` slots of the buffer from `head` on. -/
structure Channel (α : Type*) where
  capacity : Nat
  buffer : Nat → α
  head : Nat
  tail : Nat
  count : Nat
  closed : Bool

namespace Channel

variable {α : Type*}

/-- A new channel; the smallest capacity is 1 and the buffer is cleared. -/
def create (zero : α) (capacity : Nat) : Channel α where
  capacity := if capacity = 0 then 1 else capacity
  buffer _ := zero
  head := 0
  tail := 0
  count := 0
  closed := false

/-- `sigil_channel_send` under the lock: whether the value is accepted, or nothing when the
call waits. -/
def send (ch : Channel α) (value : α) : Option (Bool × Channel α) :=
  if ch.count = ch.capacity ∧ !ch.closed then none
  else if ch.closed then some (false, ch)
  else some (true, { ch with
    buffer := Function.update ch.buffer ch.tail value
    tail := (ch.tail + 1) % ch.capacity
    count := ch.count + 1 })

/-- `sigil_channel_receive` under the lock: the element if there is one, or nothing when the
call waits. Without an element the caller's buffer is left alone. -/
def receive (ch : Channel α) : Option (Option α × Channel α) :=
  if ch.count = 0 ∧ !ch.closed then none
  else if ch.count = 0 ∧ ch.closed then some (none, ch)
  else some (some (ch.buffer ch.head), { ch with
    head := (ch.head + 1) % ch.capacity
    count := ch.count - 1 })

/-- `sigil_channel_close` under the lock. -/
def close (ch : Channel α) : Channel α := { ch with closed := true }

/-- The elements in the channel, the oldest first. -/
def contents (ch : Channel α) : List α := Ring.contents ch.buffer ch.capacity ch.head ch.count

/-- The indices of a ring that is not overfull. -/
structure Ringed (ch : Channel α) : Prop where
  positive : 0 < ch.capacity
  bounded : ch.count ≤ ch.capacity
  head : ch.head < ch.capacity
  tail : ch.tail = (ch.head + ch.count) % ch.capacity

variable {ch ch' : Channel α} {value : α}

/-- A new channel has the capacity it was created with. -/
theorem capacity_create (zero : α) {capacity : Nat} (positive : 0 < capacity) :
    (create zero capacity).capacity = capacity := by
  simp [create, positive.ne']

/-- A new channel is ringed. -/
theorem ringed_create (zero : α) (capacity : Nat) : (create zero capacity).Ringed := by
  have positive : 0 < (create zero capacity).capacity := by
    simp only [create]
    split <;> omega
  exact ⟨positive, Nat.zero_le _, positive, by simp [create]⟩

/-- A call to send waits exactly at a full open channel. -/
theorem send_eq_none_iff : ch.send value = none ↔ ch.count = ch.capacity ∧ ch.closed = false := by
  unfold send
  split_ifs with full closed <;> simp_all

/-- A send is refused exactly by a closed channel, which stays as it is. -/
theorem send_refused_iff : ch.send value = some (false, ch') ↔ ch.closed = true ∧ ch' = ch := by
  unfold send
  split_ifs with full closed
  · simp_all
  · simp [closed, eq_comm]
  · simp [closed]

/-- A send is accepted by an open channel with room, and adds its value at the tail. -/
theorem send_accepted_iff : ch.send value = some (true, ch') ↔
    (ch.count ≠ ch.capacity ∧ ch.closed = false) ∧ ch' = { ch with
      buffer := Function.update ch.buffer ch.tail value
      tail := (ch.tail + 1) % ch.capacity
      count := ch.count + 1 } := by
  unfold send
  split_ifs with full closed
  · simp_all
  · simp [closed]
  · have room : ch.count ≠ ch.capacity := by simp_all
    have opened : ch.closed = false := by simpa using closed
    rw [Option.some.injEq, Prod.mk.injEq, eq_comm (b := ch')]
    simp [room, opened]

/-- A call to receive waits exactly at an empty open channel. -/
theorem receive_eq_none_iff : ch.receive = none ↔ ch.count = 0 ∧ ch.closed = false := by
  unfold receive
  split_ifs with empty drained <;> simp_all

/-- A receive comes back without an element exactly from a closed and empty channel. -/
theorem receive_drained_iff : ch.receive = some (none, ch') ↔
    (ch.count = 0 ∧ ch.closed = true) ∧ ch' = ch := by
  unfold receive
  split_ifs with empty drained
  · simp_all
  · simp [drained, eq_comm]
  · simp [drained]

/-- A receive takes the element at the head of a channel that has one. -/
theorem receive_delivered_iff : ch.receive = some (some value, ch') ↔
    ch.count ≠ 0 ∧ value = ch.buffer ch.head ∧ ch' = { ch with
      head := (ch.head + 1) % ch.capacity
      count := ch.count - 1 } := by
  unfold receive
  split_ifs with empty drained
  · simp [empty.1]
  · simp [drained.1]
  · have some : ch.count ≠ 0 := by
      intro none
      cases closed : ch.closed <;> simp_all
    rw [Option.some.injEq, Prod.mk.injEq, Option.some.injEq, eq_comm (b := ch'),
      eq_comm (b := value)]
    simp [some]

/-- An accepted send puts its value behind the contents. -/
theorem Ringed.send (ringed : ch.Ringed) (accepted : ch.send value = some (true, ch')) :
    ch'.Ringed ∧ ch'.contents = ch.contents ++ [value] := by
  obtain ⟨⟨room, _⟩, rfl⟩ := send_accepted_iff.mp accepted
  have less : ch.count < ch.capacity := lt_of_le_of_ne ringed.bounded room
  constructor
  · refine ⟨ringed.positive, less, ringed.head, ?_⟩
    simp only [ringed.tail, Nat.mod_add_mod]
    rw [Nat.add_assoc]
  · simp only [contents, ringed.tail]
    exact Ring.contents_push less

/-- A delivered value is the first of the contents. -/
theorem Ringed.receive (ringed : ch.Ringed) (delivered : ch.receive = some (some value, ch')) :
    ch'.Ringed ∧ ch.contents = value :: ch'.contents := by
  obtain ⟨some, rfl, rfl⟩ := receive_delivered_iff.mp delivered
  obtain ⟨rest, more⟩ := Nat.exists_eq_succ_of_ne_zero some
  have bounded := ringed.bounded
  constructor
  · refine ⟨ringed.positive, ?_, Nat.mod_lt _ ringed.positive, ?_⟩
    · simp only
      omega
    · simp only [ringed.tail, more, Nat.mod_add_mod]
      congr 1
      omega
  · simp only [contents, more]
    rw [Ring.contents_pop, Nat.mod_eq_of_lt ringed.head]
    rfl

end Channel

/-- A call on a channel. -/
inductive Call (α : Type*) where
  | send (value : α)
  | receive
  | close

/-- What happens on a channel: a thread starts a call, wakes up unasked, blocks, or ends a
section with the return of its call. -/
inductive ChannelEvent (ι α : Type*) where
  | call (i : ι) (call : Call α)
  | wake (i : ι)
  | wait (i : ι)
  | sent (i : ι) (value : α) (accepted : Bool)
  | received (i : ι) (value : Option α)
  | closed (i : ι)

/-- A channel, who waits on its two condition variables, and the calls under way. -/
structure ChannelState (ι α : Type*) where
  channel : Channel α
  notFull : CondVar ι
  notEmpty : CondVar ι
  calls : ι → Option (Call α)

namespace ChannelState

variable {ι α : Type*}

def create (zero : α) (capacity : Nat) : ChannelState ι α where
  channel := Channel.create zero capacity
  notFull := .init
  notEmpty := .init
  calls _ := none

variable [DecidableEq ι]

/-- The steps of the threads. One that holds the lock was signalled, woke up unasked or has
not waited; it tests its condition in each case. -/
inductive Step : ChannelState ι α → ChannelEvent ι α → ChannelState ι α → Prop where
  | call {s : ChannelState ι α} {i : ι} {call : Call α} (free : s.calls i = none) :
      Step s (.call i call) { s with calls := Function.update s.calls i (some call) }
  | wakeSender {s : ChannelState ι α} {i : ι} (blocked : i ∈ s.notFull.waiting) :
      Step s (.wake i) { s with notFull := s.notFull.leave i }
  | wakeReceiver {s : ChannelState ι α} {i : ι} (blocked : i ∈ s.notEmpty.waiting) :
      Step s (.wake i) { s with notEmpty := s.notEmpty.leave i }
  | waitFull {s : ChannelState ι α} {i : ι} {value : α} (called : s.calls i = some (.send value))
      (awake : i ∉ s.notFull.waiting) (waits : s.channel.send value = none) :
      Step s (.wait i) { s with notFull := s.notFull.wait i }
  | accept {s : ChannelState ι α} {i : ι} {value : α} {channel : Channel α} {notEmpty : CondVar ι}
      (called : s.calls i = some (.send value)) (awake : i ∉ s.notFull.waiting)
      (accepted : s.channel.send value = some (true, channel))
      (signals : s.notEmpty.Signals notEmpty) :
      Step s (.sent i value true)
        ⟨channel, s.notFull.leave i, notEmpty, Function.update s.calls i none⟩
  | refuse {s : ChannelState ι α} {i : ι} {value : α} {channel : Channel α}
      (called : s.calls i = some (.send value)) (awake : i ∉ s.notFull.waiting)
      (refused : s.channel.send value = some (false, channel)) :
      Step s (.sent i value false)
        ⟨channel, s.notFull.leave i, s.notEmpty, Function.update s.calls i none⟩
  | waitEmpty {s : ChannelState ι α} {i : ι} (called : s.calls i = some .receive)
      (awake : i ∉ s.notEmpty.waiting) (waits : s.channel.receive = none) :
      Step s (.wait i) { s with notEmpty := s.notEmpty.wait i }
  | deliver {s : ChannelState ι α} {i : ι} {value : α} {channel : Channel α} {notFull : CondVar ι}
      (called : s.calls i = some .receive) (awake : i ∉ s.notEmpty.waiting)
      (delivered : s.channel.receive = some (some value, channel))
      (signals : s.notFull.Signals notFull) :
      Step s (.received i (some value))
        ⟨channel, notFull, s.notEmpty.leave i, Function.update s.calls i none⟩
  | drained {s : ChannelState ι α} {i : ι} {channel : Channel α}
    (called : s.calls i = some .receive)
      (awake : i ∉ s.notEmpty.waiting) (drained : s.channel.receive = some (none, channel)) :
      Step s (.received i none)
        ⟨channel, s.notFull, s.notEmpty.leave i, Function.update s.calls i none⟩
  | close {s : ChannelState ι α} {i : ι} (called : s.calls i = some .close) :
      Step s (.closed i)
        ⟨s.channel.close, s.notFull.broadcast, s.notEmpty.broadcast, Function.update s.calls i none⟩

end ChannelState

namespace ChannelEvent

variable {ι α : Type*}

/-- The value a send put into the channel. -/
def acceptedValue : ChannelEvent ι α → Option α
  | sent _ value true => some value
  | _ => none

/-- The value a receive took out of the channel. -/
def deliveredValue : ChannelEvent ι α → Option α
  | received _ value => value
  | _ => none

/-- The values accepted by a history, in order. -/
def accepted (events : List (ChannelEvent ι α)) : List α := events.filterMap acceptedValue

/-- The values delivered by a history, in order. -/
def delivered (events : List (ChannelEvent ι α)) : List α := events.filterMap deliveredValue

/-- The channel was closed in a history. -/
def WasClosed (events : List (ChannelEvent ι α)) : Prop := ∃ i, closed i ∈ events

variable {events later : List (ChannelEvent ι α)} {e : ChannelEvent ι α}

/-- One more event accepts its own value. -/
@[simp] theorem accepted_snoc :
    accepted (events ++ [e]) = accepted events ++ e.acceptedValue.toList := by
  cases found : e.acceptedValue <;> simp [accepted, found]

/-- One more event delivers its own value. -/
@[simp] theorem delivered_snoc :
    delivered (events ++ [e]) = delivered events ++ e.deliveredValue.toList := by
  cases found : e.deliveredValue <;> simp [delivered, found]

/-- A channel was closed before or is closed by the last event. -/
@[simp] theorem wasClosed_snoc : WasClosed (events ++ [e]) ↔ WasClosed events ∨ ∃ i, closed i =
    e := by
  simp [WasClosed, exists_or]

end ChannelEvent

namespace ChannelState

open ChannelEvent

variable {ι α : Type*} [DecidableEq ι] {zero : α} {capacity : Nat}
  {events : List (ChannelEvent ι α)} {s t : ChannelState ι α} {e : ChannelEvent ι α}

/-- What is in the channel is what was accepted and not delivered yet. -/
structure Ledger (capacity : Nat) (events : List (ChannelEvent ι α)) (s : ChannelState ι α) :
    Prop where
  ringed : s.channel.Ringed
  capacity : s.channel.capacity = capacity
  fifo : accepted events = delivered events ++ s.channel.contents
  closed : s.channel.closed = true ↔ WasClosed events

omit [DecidableEq ι] in
/-- The ledger of a new channel is balanced. -/
theorem Ledger.start : Ledger (Channel.create zero capacity).capacity []
    (create zero capacity : ChannelState ι α) where
  ringed := Channel.ringed_create zero capacity
  capacity := rfl
  fifo := rfl
  closed := by simp [create, Channel.create, WasClosed]

omit [DecidableEq ι] in
/-- A step that leaves the channel alone and moves no element. -/
theorem Ledger.quiet (ledger : Ledger capacity events s) (same : t.channel = s.channel)
    (accepts : e.acceptedValue = none) (delivers : e.deliveredValue = none)
    (closes : ∀ i, ChannelEvent.closed i ≠ e) : Ledger capacity (events ++ [e]) t where
  ringed := same ▸ ledger.ringed
  capacity := same ▸ ledger.capacity
  fifo := by simpa [same, accepts, delivers] using ledger.fifo
  closed := by simpa [same, closes] using ledger.closed

/-- Every step keeps the ledger balanced. -/
theorem Ledger.step (ledger : Ledger capacity events s) (next : Step s e t) :
    Ledger capacity (events ++ [e]) t := by
  have ringed := ledger.ringed
  cases next with
  | call | wakeSender | wakeReceiver | waitFull | waitEmpty =>
      exact ledger.quiet rfl rfl rfl (by simp)
  | accept called awake accepted signals =>
      obtain ⟨ringed', grown⟩ := ringed.send accepted
      obtain ⟨_, rfl⟩ := Channel.send_accepted_iff.mp accepted
      refine ⟨ringed', ledger.capacity, ?_, by simpa using ledger.closed⟩
      simp [acceptedValue, deliveredValue, ledger.fifo, grown]
  | refuse called awake refused =>
      obtain ⟨_, rfl⟩ := Channel.send_refused_iff.mp refused
      exact ledger.quiet rfl rfl rfl (by simp)
  | deliver called awake delivered signals =>
      obtain ⟨ringed', shrunk⟩ := ringed.receive delivered
      obtain ⟨_, _, rfl⟩ := Channel.receive_delivered_iff.mp delivered
      refine ⟨ringed', ledger.capacity, ?_, by simpa using ledger.closed⟩
      simp [acceptedValue, deliveredValue, ledger.fifo, shrunk]
  | drained called awake drained =>
      obtain ⟨_, rfl⟩ := Channel.receive_drained_iff.mp drained
      exact ledger.quiet rfl rfl rfl (by simp)
  | close called =>
      refine ⟨⟨ringed.positive, ringed.bounded, ringed.head, ringed.tail⟩, ledger.capacity, ?_,
        by simp [Channel.close]⟩
      simpa [acceptedValue, deliveredValue, Channel.close, Channel.contents] using ledger.fifo

/-- The ledger is kept along every run. -/
theorem Ledger.of_run (run : Run Step (create zero capacity : ChannelState ι α) events s) :
    Ledger (Channel.create zero capacity).capacity events s :=
  run.keeps .start fun _ _ _ _ _ ledger next => ledger.step next

/-- A send is accepted by an open channel only. -/
theorem Step.open_of_accepted {i : ι} {value : α} (next : Step s (.sent i value true) t) :
    s.channel.closed = false := by
  cases next with
  | accept called awake accepted signals => exact (Channel.send_accepted_iff.mp accepted).1.2

/-- A receive reports a closed channel only when it is closed and empty. -/
theorem Step.closed_of_drained {i : ι} (next : Step s (.received i none) t) :
    s.channel.closed = true ∧ s.channel.count = 0 := by
  cases next with
  | drained called awake drained => exact (Channel.receive_drained_iff.mp drained).1.symm

/-- The channel protocol: the indices stay those of a ring, elements come out in the order
they went in, no send succeeds after a close, and a receive reports a closed channel when
it is closed and every accepted element was delivered. -/
theorem channel_protocol (positive : 0 < capacity)
    (run : Run Step (create zero capacity : ChannelState ι α) events s) :
    (s.channel.capacity = capacity ∧ s.channel.count ≤ capacity ∧
      s.channel.tail = (s.channel.head + s.channel.count) % capacity) ∧
    delivered events <+: accepted events ∧
    (∀ before i value later, events = before ++ .sent i value true :: later → ¬ WasClosed before) ∧
    ∀ before i later, events = before ++ .received i none :: later →
      WasClosed before ∧ delivered before = accepted before := by
  have ledger := Ledger.of_run run
  have size : s.channel.capacity = capacity :=
    ledger.capacity.trans (Channel.capacity_create zero positive)
  refine ⟨⟨size, ?_, ?_⟩, ⟨_, ledger.fifo.symm⟩, ?_, ?_⟩
  · exact size ▸ ledger.ringed.bounded
  · exact size ▸ ledger.ringed.tail
  · rintro before i value later rfl
    obtain ⟨m, m', first, next, _⟩ := run.at_event
    rw [← (Ledger.of_run first).closed, next.open_of_accepted]
    exact Bool.false_ne_true
  · rintro before i later rfl
    obtain ⟨m, m', first, next, _⟩ := run.at_event
    obtain ⟨closed, empty⟩ := next.closed_of_drained
    have ledger := Ledger.of_run first
    refine ⟨ledger.closed.mp closed, ?_⟩
    rw [ledger.fifo, Channel.contents, empty, Ring.contents_zero, List.append_nil]

/-- Two values go through a channel of capacity 1, which is then closed and read once more. -/
def relay : List (ChannelEvent Nat Nat) :=
  [.call 0 (.send 7), .sent 0 7 true, .call 1 .receive, .received 1 (some 7), .call 0 (.send 8),
    .sent 0 8 true, .call 1 .receive, .received 1 (some 8), .call 0 .close, .closed 0,
    .call 1 .receive, .received 1 none]

/-- The run `relay` is one of the channel. -/
theorem relay_runs : ∃ s, Run Step (create 0 1 : ChannelState Nat Nat) relay s := by
  refine ⟨_, .cons (.call rfl)
    (.cons (.accept (by simp) (by simp [create]) rfl (.inl ⟨rfl, rfl⟩))
    (.cons (.call (by simp [create]))
    (.cons (.deliver (by simp) (by simp [create]) rfl (.inl ⟨rfl, rfl⟩))
    (.cons (.call (by simp))
    (.cons (.accept (by simp) (by simp [create]) rfl (.inl ⟨rfl, rfl⟩))
    (.cons (.call (by simp))
    (.cons (.deliver (by simp) (by simp [create]) rfl (.inl ⟨rfl, rfl⟩))
    (.cons (.call (by simp))
    (.cons (.close (by simp))
    (.cons (.call (by simp))
    (.single (.drained (by simp) (by simp [create]) rfl))))))))))))⟩

/-- Two values wrap around the buffer, and the channel is closed. -/
theorem channel_protocol_relay : delivered relay <+: accepted relay := by
  obtain ⟨s, run⟩ := relay_runs
  exact (channel_protocol (by decide) run).2.1

end ChannelState

end Sigil.Runtime
