import Sigil.Runtime.Channel

/-!
# Wakeups of a channel

Each section signals one thread only. That is enough: while a receiver stays blocked, the
signalled receivers that have not run yet are as many as the elements, and while a sender
stays blocked, the signalled senders are as many as the free slots. A thread that overtakes
a signalled one takes an element away, and leaves a signal too many.
-/

namespace Sigil.Runtime.ChannelState

open Flow

variable {ι α : Type*} [DecidableEq ι] {zero : α} {capacity : Nat}
  {events : List (ChannelEvent ι α)} {s t : ChannelState ι α} {e : ChannelEvent ι α}

/-- Somebody is blocked only on an open channel with a signal for each element, or slot. -/
structure Covered (s : ChannelState ι α) : Prop where
  receivers : s.notEmpty.waiting.Nonempty →
    s.channel.closed = false ∧ s.channel.count ≤ s.notEmpty.signalled.card
  senders : s.notFull.waiting.Nonempty →
    s.channel.closed = false ∧ s.channel.capacity - s.channel.count ≤ s.notFull.signalled.card

omit [DecidableEq ι] in
/-- On a new channel nobody waits. -/
theorem Covered.start : Covered (create zero capacity : ChannelState ι α) where
  receivers blocked := by simp [create] at blocked
  senders blocked := by simp [create] at blocked

/-- A thread that leaves without a signal leaves the signals to the others. -/
theorem blocked_of_leave {c : CondVar ι} {i : ι} (blocked : (c.leave i).waiting.Nonempty) :
    c.waiting.Nonempty :=
  blocked.mono (Finset.erase_subset i _)

/-- Every step keeps the waiting threads covered. -/
theorem Covered.step (covered : Covered s) (next : Step s e t) : Covered t := by
  obtain ⟨receivers, senders⟩ := covered
  cases next with
  | call free => exact ⟨receivers, senders⟩
  | wakeSender waits =>
      refine ⟨receivers, fun blocked => ?_⟩
      rw [CondVar.signalled_leave_of_waiting waits]
      exact senders (blocked_of_leave blocked)
  | wakeReceiver waits =>
      refine ⟨fun blocked => ?_, senders⟩
      rw [CondVar.signalled_leave_of_waiting waits]
      exact receivers (blocked_of_leave blocked)
  | waitFull called awake waits =>
      obtain ⟨full, opened⟩ := Channel.send_eq_none_iff.mp waits
      exact ⟨receivers, fun _ => ⟨opened, by simp [full]⟩⟩
  | waitEmpty called awake waits =>
      obtain ⟨empty, opened⟩ := Channel.receive_eq_none_iff.mp waits
      exact ⟨fun _ => ⟨opened, by simp [empty]⟩, senders⟩
  | @accept i value channel notEmpty called awake accepted signals =>
      obtain ⟨⟨room, opened⟩, rfl⟩ := Channel.send_accepted_iff.mp accepted
      refine ⟨fun blocked => ⟨opened, ?_⟩, fun blocked => ⟨opened, ?_⟩⟩
      · -- one more element, and one more receiver signalled
        obtain ⟨before, more⟩ := signals.card blocked
        have enough := (receivers before).2
        simp only [more]
        omega
      · -- one slot less, and at most the sender itself less
        have enough := (senders (blocked_of_leave blocked)).2
        have less := CondVar.card_leave_add_one (c := s.notFull) (i := i)
        simp only
        omega
  | refuse called awake refused =>
      obtain ⟨closed, rfl⟩ := Channel.send_refused_iff.mp refused
      refine ⟨receivers, fun blocked => ?_⟩
      have opened := (senders (blocked_of_leave blocked)).1
      exact absurd (closed.symm.trans opened) (by decide)
  | @deliver i value channel notFull called awake delivered signals =>
      obtain ⟨some, _, rfl⟩ := Channel.receive_delivered_iff.mp delivered
      refine ⟨fun blocked => ?_, fun blocked => ?_⟩
      · obtain ⟨opened, enough⟩ := receivers (blocked_of_leave blocked)
        have less := CondVar.card_leave_add_one (c := s.notEmpty) (i := i)
        refine ⟨opened, ?_⟩
        simp only
        omega
      · obtain ⟨before, more⟩ := signals.card blocked
        obtain ⟨opened, enough⟩ := senders before
        refine ⟨opened, ?_⟩
        simp only [more]
        omega
  | drained called awake drained =>
      obtain ⟨⟨_, closed⟩, rfl⟩ := Channel.receive_drained_iff.mp drained
      refine ⟨fun blocked => ?_, senders⟩
      have opened := (receivers (blocked_of_leave blocked)).1
      exact absurd (closed.symm.trans opened) (by decide)
  | close called => exact ⟨fun blocked => by simp at blocked, fun blocked => by simp at blocked⟩

/-- No wakeup is lost: a receiver stays blocked without a signal only while the channel is
open and its elements are not more than the signalled receivers still to run, and a sender
only while the free slots are not more than the signalled senders still to run. -/
theorem no_lost_wakeup (positive : 0 < capacity)
    (run : Run Step (create zero capacity : ChannelState ι α) events s) :
    (∀ i ∈ s.notEmpty.waiting,
      s.channel.closed = false ∧ s.channel.count ≤ s.notEmpty.signalled.card) ∧
    ∀ i ∈ s.notFull.waiting,
      s.channel.closed = false ∧ capacity - s.channel.count ≤ s.notFull.signalled.card := by
  have covered : Covered s := run.invariant .start fun _ _ _ covered next => covered.step next
  have size := (Ledger.of_run run).capacity.trans (Channel.capacity_create zero positive)
  exact ⟨fun i blocked => covered.receivers ⟨i, blocked⟩,
    fun i blocked => size ▸ covered.senders ⟨i, blocked⟩⟩

/-- Two receivers block, and a send signals the first. -/
def handover : List (ChannelEvent Nat Nat) :=
  [.call 1 .receive, .wait 1, .call 2 .receive, .wait 2, .call 0 (.send 7), .sent 0 7 true]

/-- The run `handover` is one of the channel, and its second receiver waits. -/
theorem handover_runs : ∃ s : ChannelState Nat Nat, Run Step (create 0 1) handover s ∧
    2 ∈ s.notEmpty.waiting := by
  refine ⟨_, .cons (.call rfl) (.cons (.waitEmpty (by simp) (by simp [create]) rfl)
    (.cons (.call ?_) (.cons (.waitEmpty (by simp) (by simp [create]) rfl) (.cons (.call ?_)
      (.single (.accept (by simp) (by simp [create]) rfl (.inr ⟨1, by simp [create], rfl⟩))))))), ?_⟩
  all_goals simp [create]

/-- The receiver that is signalled is not yet awake. -/
theorem no_lost_wakeup_handover : ∃ s : ChannelState Nat Nat, Run Step (create 0 1) handover s ∧
    s.channel.closed = false ∧ s.channel.count ≤ s.notEmpty.signalled.card := by
  obtain ⟨s, run, blocked⟩ := handover_runs
  exact ⟨s, run, (no_lost_wakeup (by decide) run).1 2 blocked⟩

end Sigil.Runtime.ChannelState
