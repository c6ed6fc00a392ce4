import EventStreamCore.Bridge.Metrics
import EventStreamCore.Events.DropWindow
import EventStreamCore.Events.EndToEnd
import EventStreamCore.Queues.MpscBound

/-!
# Bounded space

Overload does not grow the pipeline: each queue of the bus refuses or gives up what is over its
capacity, `src/core/events/event_bus.cpp:33–111`, the dead letter queue keeps a window,
`src/core/events/dead_letter_queue.cpp:9–48`, and the inbound queue tests its counter before it
inserts, `include/eventstream/core/queues/mpsc.hpp:36–53`, so that several ingest threads can pass
the test on one free place.
-/

namespace EventStreamCore.Events
open EventStreamCore.Lib EventStreamCore.Queues

universe u v

/-- A queue within a capacity that never changes. -/
def Q.Capped {α : Type u} (capacity : Nat) (q : Q α) : Prop := q.Bounded ∧ q.capacity = capacity

private theorem capped_kept {α : Type u} (capacity : Nat) :
    Q.Kept fun q : Q α ↦ q.Capped capacity where
  push h hq := ⟨h.1.push hq, (Q.push_pushed hq).2.1.trans h.2⟩
  pop h hq := ⟨h.1.pop hq, (Q.pop_popped hq).2.1.trans h.2⟩
  takeBatch h := ⟨h.1.takeBatch, h.2⟩

namespace DeadLetterQueue

variable {ε : Type u}

/-- Whatever is pushed, the buffer stays a window. -/
theorem size_foldl_push_le {dlq : DeadLetterQueue ε} (h : dlq.size ≤ maxStoredEvents)
    (events : List ε) : (events.foldl push dlq).size ≤ maxStoredEvents := by
  induction events generalizing dlq with
  | nil => exact h
  | cons e events ih =>
    apply ih
    show (store dlq.storedEvents e).length ≤ maxStoredEvents
    have hsize : dlq.storedEvents.length ≤ maxStoredEvents := h
    have hpos : 0 < maxStoredEvents := by decide
    unfold store
    split
    · rw [List.length_append, List.length_drop, List.length_singleton]
      omega
    · rw [List.length_append, List.length_singleton]
      omega

end DeadLetterQueue

namespace EventBusMulti

variable {α : Type u} {bus bus' : EventBusMulti α}

/-- The locked queues keep to their capacities, and the dead letter queue to its window. -/
structure Capped (bus : EventBusMulti α) : Prop where
  queues : bus.Queues (Q.Capped 131072) (Q.Capped 32768)
  dlq : bus.dlq.size ≤ DeadLetterQueue.maxStoredEvents

/-- An operation of `push` keeps to the capacities. -/
theorem Capped.pushOp (h : bus.Capped) {q : QueueId} {evt : α} {timeout : Bool} {op : PushOp α}
    {progress : Progress (PushOp α) Bool}
    (hop : bus.pushOp q evt timeout op = some (bus', progress)) : bus'.Capped := by
  refine ⟨h.queues.pushOp (capped_kept _) (capped_kept _) hop, ?_⟩
  rw [(pushOp_frame hop).2]
  exact DeadLetterQueue.size_foldl_push_le h.dlq _

/-- `pop` keeps to the capacities. -/
theorem Capped.pop (h : bus.Capped) {q : QueueId} {evt : α}
    (hpop : bus.pop q = some (evt, bus')) : bus'.Capped := by
  refine ⟨h.queues.pop (capped_kept _) (capped_kept _) hpop, ?_⟩
  rw [(pop_frame hpop).2.1]
  exact h.dlq

/-- The loop of `dropBatchFromQueue(REALTIME)` takes at most what it is asked for and leaves the
dead letter queue alone. -/
theorem popBatch_frame (bus : EventBusMulti α) (n : Nat) :
    (bus.popBatch n).1.length ≤ n ∧ (bus.popBatch n).2.dlq = bus.dlq := by
  induction n generalizing bus with
  | zero => exact ⟨Nat.le_refl 0, rfl⟩
  | succ n ih =>
    unfold popBatch
    split
    · exact ⟨Nat.zero_le _, rfl⟩
    · next ring evt _ =>
      obtain ⟨hlength, hdlq⟩ := ih (bus.setRing ring)
      exact ⟨Nat.succ_le_succ hlength, hdlq⟩

/-- What `dropBatchFromQueue` takes out is one batch, and only this batch goes into the dead letter
queue. -/
theorem dropBatchFromQueue_frame (bus : EventBusMulti α) (q : QueueId) :
    (bus.dropBatchFromQueue q).2 ≤ dropBatchSize ∧ ∃ batch : List α,
      (bus.dropBatchFromQueue q).1.dlq = batch.foldl DeadLetterQueue.push bus.dlq := by
  have htaken : ∀ taken : List α × EventBusMulti α, taken.2.dlq = bus.dlq →
      ∃ batch : List α, (if taken.1.isEmpty then taken.2 else taken.2.flushBatch taken.1).dlq =
        batch.foldl DeadLetterQueue.push bus.dlq := by
    intro taken hdlq
    split
    · exact ⟨[], hdlq⟩
    · refine ⟨taken.1, ?_⟩
      rw [flushBatch, DeadLetterQueue.pushBatch_some, hdlq]
  unfold dropBatchFromQueue
  by_cases hq : q = .realtime
  · rw [if_pos hq]
    obtain ⟨hlength, hdlq⟩ := bus.popBatch_frame dropBatchSize
    exact ⟨hlength, htaken _ hdlq⟩
  · rw [if_neg hq]
    refine ⟨?_, htaken _ ?_⟩
    · show ((bus.getQueue q).dq.take _).length ≤ dropBatchSize
      rw [List.length_take]
      omega
    · cases q <;> rfl

/-- `dropBatchFromQueue` keeps to the capacities. -/
theorem Capped.dropBatchFromQueue (h : bus.Capped) (q : QueueId) :
    (bus.dropBatchFromQueue q).1.Capped := by
  refine ⟨h.queues.dropBatchFromQueue (capped_kept _) (capped_kept _) q, ?_⟩
  obtain ⟨batch, hbatch⟩ := (bus.dropBatchFromQueue_frame q).2
  rw [hbatch]
  exact DeadLetterQueue.size_foldl_push_le h.dlq batch

/-- A new bus. -/
theorem Capped.initial (buffer : Fin realtimeCapacity.val → α) :
    (EventBusMulti.initial buffer).Capped := by
  refine ⟨⟨⟨⟨?_, Nat.zero_le _, Nat.le_refl _⟩, rfl⟩, ⟨⟨?_, Nat.zero_le _, ?_⟩, rfl⟩⟩,
    Nat.zero_le _⟩
  · simp [EventBusMulti.initial, Q.transactional]
  · simp [EventBusMulti.initial, Q.batch]
  · simp [EventBusMulti.initial, Q.batch]

end EventBusMulti

namespace EndToEnd

variable {ι : Type v} {s t : EndToEnd ι}

/-- The events in the hands of `dispatchLoop`, that of an overflow included. -/
def hands (s : EndToEnd ι) : List (Posted ι) :=
  match s.dispatcher with
  | .popping => []
  | .route x => [x]
  | .push x _ _ op => op.hands x
  | .dlq x => [x]

/-- Never more than two. -/
theorem length_hands_le (s : EndToEnd ι) : s.hands.length ≤ 2 := by
  unfold hands
  split
  · exact Nat.zero_le 2
  · exact Nat.le_succ 1
  · next op _ => cases op <;> simp [PushOp.hands]
  · exact Nat.le_succ 1

variable [DecidableEq ι]

/-- Every step keeps to the capacities of the bus. -/
theorem capped_step {topicTable : Option TopicTable} {l : EndToEndLabel ι} (h : s.bus.Capped)
    (hs : s.step topicTable l = some t) : t.bus.Capped := by
  have hingest : ∀ l, s.ingest l = some t → t.bus.Capped := by
    intro l hl
    obtain ⟨inbound, -, rfl⟩ := Option.map_eq_some_iff.mp hl
    exact h
  cases l with
  | callPush i evt => exact hingest _ hs
  | alloc i node => exact hingest _ hs
  | producer i => exact hingest _ hs
  | dispatcher timeout =>
    rw [EndToEnd.step, EndToEnd.stepDispatcher] at hs
    split at hs
    · obtain ⟨inbound, -, rfl⟩ := Option.map_eq_some_iff.mp hs
      exact h
    · cases hs
      exact h
    · obtain ⟨⟨bus, progress⟩, hop, rfl⟩ := Option.map_eq_some_iff.mp hs
      exact h.pushOp hop
    · next x _ =>
      cases hs
      exact ⟨⟨h.queues.transactional, h.queues.batch⟩,
        DeadLetterQueue.size_foldl_push_le h.dlq [x]⟩
  | consume queueId =>
    obtain ⟨⟨x, bus⟩, hpop, rfl⟩ := Option.map_eq_some_iff.mp hs
    exact h.pop hpop
  | dropBatchFromQueue queueId =>
    cases hs
    exact h.dropBatchFromQueue queueId

end EndToEnd

/-- Overload never grows the pipeline beyond fixed bounds. In every run of the ingest threads `ι`,
with fewer than `2^63` operations on the inbound queue, whatever comes in and however slowly it is
consumed: the inbound queue holds at most 65536 events and one for each ingest thread but one, the
ring 16383, TRANSACTIONAL 131072 and BATCH 32768, the dead letter queue stores at most 1000, the
dispatcher has at most two more in its hands, and a drop takes at most 64 out at a time. -/
theorem pipeline_bounded (ι : Type v) [Fintype ι] [DecidableEq ι] (topicTable : Option TopicTable)
    (dummy : Nat) (buffer : Fin realtimeCapacity.val → Posted ι) (s : EndToEnd ι)
    (h : (endToEnd ι topicTable dummy buffer).Reachable s)
    (hops : s.inbound.operations < 2 ^ 63) :
    s.inbound.exchanged.length ≤ s.inbound.popped.length + (65536 + (Fintype.card ι - 1)) ∧
    (s.bus.held .realtime).length ≤ 16383 ∧ (s.bus.held .transactional).length ≤ 131072 ∧
    (s.bus.held .batch).length ≤ 32768 ∧ s.bus.dlq.size ≤ 1000 ∧ s.hands.length ≤ 2 ∧
    ∀ q, (s.bus.dropBatchFromQueue q).2 ≤ 64 := by
  have hcapped : s.bus.Capped := by
    refine Machine.Reachable.invariant (I := fun s ↦ s.bus.Capped) ?_ ?_ h
    · exact .initial buffer
    · exact fun _ _ _ hi hs ↦ EndToEnd.capped_step hi hs
  refine ⟨?_, s.bus.realtimeBus.ringBuffer.contents_length_le, ?_, ?_, hcapped.dlq,
    s.length_hands_le, fun q ↦ (s.bus.dropBatchFromQueue_frame q).1⟩
  · have hadmits := MpscQueue.State.Admits.of_reachable (by decide)
      (EndToEnd.Inv.of_reachable h).inbound
    have hbound := hadmits.length_exchanged_le hops
    have hcapacity : Dispatcher.inboundCapacity = 65536 := rfl
    omega
  · obtain ⟨hlen, hcapacity⟩ := hcapped.queues.transactional
    exact hcapacity ▸ hlen.length_le
  · obtain ⟨hlen, hcapacity⟩ := hcapped.queues.batch
    exact hcapacity ▸ hlen.length_le

/-- Two ingest threads that test the counter before either inserts. -/
theorem pipeline_bounded_two :
    let event : Event := ⟨⟨.tcp, .medium, 7, 0, 0, 0, 0⟩, [97], [], [], 0⟩
    let m := endToEnd Bool none 0 fun _ ↦ ⟨true, 0, event⟩
    ∃ s, m.Reachable s ∧ s.inbound.exchanged.length = 2 ∧ s.inbound.popped.length = 0 ∧
      s.inbound.exchanged.length ≤ s.inbound.popped.length + (65536 + (Fintype.card Bool - 1)) := by
  intro event m
  have hrun : (m.run m.start [.callPush true (some event), .callPush false (some event),
      .alloc false 7, .alloc true 3, .producer true, .producer false]).map (fun s ↦
        (s.inbound.exchanged.length, s.inbound.popped.length, (s.inbound.calls true).length,
          (s.inbound.calls false).length, s.inbound.returns.length)) = some (2, 0, 1, 1, 0) := by
    decide +kernel
  obtain ⟨s, hrun, hs⟩ := Option.map_eq_some_iff.mp hrun
  simp only [Prod.mk.injEq] at hs
  obtain ⟨hexchanged, hpopped, htrue, hfalse, hreturns⟩ := hs
  have hops : s.inbound.operations < 2 ^ 63 := by
    rw [MpscQueue.State.operations, Fintype.sum_bool, htrue, hfalse, hreturns]
    decide
  have hreach := Machine.Reachable.run .start hrun
  exact ⟨s, hreach, hexchanged, hpopped, (pipeline_bounded Bool none 0 _ s hreach hops).1⟩

end EventStreamCore.Events
