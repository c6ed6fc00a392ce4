import EventStreamCore.Events.DeadLetterQueue
import EventStreamCore.Queues.Spsc

/-!
# The event bus

Data model of `EventBusMulti`, `include/eventstream/core/events/event_bus.hpp:19–107`, and
the lock-protected bodies of its operations, `src/core/events/event_bus.cpp:8–221`. `α`
stands for a non-null `EventPtr`; `pop` also stamps the event it points to with the time, which
is left to the runs that look at what a consumer gets. Log lines, thread binding and metric
timestamps are left out.
-/

namespace EventStreamCore.Events
open EventStreamCore.Lib EventStreamCore.Queues

universe u

variable {α : Type u}

/-- `EventBusMulti::QueueId`. -/
inductive QueueId where
  | realtime | transactional | batch
deriving DecidableEq, Repr

/-- `EventBusMulti::OverflowPolicy`. -/
inductive OverflowPolicy where
  | dropOld | blockProducer | dropNew
deriving DecidableEq, Repr

/-- `EventBusMulti::PressureLevel`. -/
inductive PressureLevel where
  | normal | high | critical
deriving DecidableEq, Repr

/-- `DROP_BATCH_SIZE`; `event_bus.hpp:17`. -/
def dropBatchSize : Nat := 64

/-- The capacity of the REALTIME ring; `event_bus.hpp:79`. -/
def realtimeCapacity : Capacity := ⟨16384, by decide, by decide⟩

/-- The pressure level `push` stores for a measured ring size; `event_bus.cpp:43–48`. -/
def pressureOf (used : Nat) : PressureLevel :=
  if used ≥ 14000 then .critical else if used ≥ 12000 then .high else .normal

/-- The counters of one `Metrics` record that the bus updates; `metrics.hpp:5–12`. -/
structure Metrics where
  totalEventsProcessed : UInt64
  totalEventsDropped : UInt64
  currentQueueDepth : UInt64
deriving DecidableEq, Repr

namespace Metrics

/-- All counters zero. -/
def initial : Metrics := ⟨0, 0, 0⟩

/-- `total_events_processed.fetch_add(1)`. -/
def processed (m : Metrics) : Metrics :=
  { m with totalEventsProcessed := m.totalEventsProcessed + 1 }

/-- `total_events_dropped.fetch_add(n)`. -/
def dropped (m : Metrics) (n : Nat) : Metrics :=
  { m with totalEventsDropped := m.totalEventsDropped + UInt64.ofNat n }

end Metrics

/-- `EventBusMulti::RealtimeQueue`; `event_bus.hpp:78–82`. -/
structure RealtimeQueue (α : Type u) where
  ringBuffer : SpscRingBuffer realtimeCapacity α
  policy : OverflowPolicy
  pressure : PressureLevel

/-- The REALTIME queue of a new bus. -/
def RealtimeQueue.initial (buffer : Fin realtimeCapacity.val → α) : RealtimeQueue α :=
  ⟨SpscRingBuffer.initial realtimeCapacity buffer, .dropOld, .normal⟩

/-- `EventBusMulti::Q` without its mutex and condition variable; `event_bus.hpp:84–90`. -/
structure Q (α : Type u) where
  dq : List α
  capacity : Nat
  policy : OverflowPolicy
deriving DecidableEq, Repr

namespace Q

variable {α : Type u}

/-- `TransactionalBus_` of a new bus. -/
def transactional : Q α := ⟨[], 131072, .blockProducer⟩

/-- `BatchBus_` of a new bus. -/
def batch : Q α := ⟨[], 32768, .dropNew⟩

/-- How the lock-protected part of `push` ends. -/
inductive PushResult (α : Type u) where
  | waiting
  | timedOut
  | dropped
  | pushed (q : Q α)

/-- The lock-protected part of `push`, `event_bus.cpp:82–107`. A full queue that blocks its
producer keeps it waiting until there is room or the wait times out. -/
def push (q : Q α) (evt : α) (timeout : Bool) : PushResult α :=
  if q.dq.length ≥ q.capacity then
    match q.policy with
    | .blockProducer => if timeout then .timedOut else .waiting
    | .dropNew => .dropped
    | .dropOld => .pushed { q with dq := q.dq ++ [evt] }
  else .pushed { q with dq := q.dq ++ [evt] }

/-- The lock-protected part of `pop`, `event_bus.cpp:135–156`; an empty queue makes it wait
and then time out. -/
def pop (q : Q α) : Option (α × Q α) :=
  match q.dq with
  | [] => none
  | evt :: dq => some (evt, { q with dq })

/-- The lock-protected part of `dropBatchFromQueue`, `event_bus.cpp:192–202`. -/
def takeBatch (q : Q α) : List α × Q α :=
  (q.dq.take (min dropBatchSize q.dq.length),
    { q with dq := q.dq.drop (min dropBatchSize q.dq.length) })

/-- A `push` that went through appends its event. -/
theorem push_pushed {q q' : Q α} {evt : α} {timeout : Bool}
    (h : q.push evt timeout = .pushed q') :
    q'.dq = q.dq ++ [evt] ∧ q'.capacity = q.capacity ∧ q'.policy = q.policy := by
  unfold push at h
  split at h
  · split at h
    · split at h <;> cases h
    · cases h
    · cases h
      exact ⟨rfl, rfl, rfl⟩
  · cases h
    exact ⟨rfl, rfl, rfl⟩

/-- A `pop` takes the first event out. -/
theorem pop_popped {q q' : Q α} {evt : α} (h : q.pop = some (evt, q')) :
    q.dq = evt :: q'.dq ∧ q'.capacity = q.capacity ∧ q'.policy = q.policy := by
  unfold pop at h
  split at h
  · cases h
  · next x dq hdq =>
    cases h
    exact ⟨hdq, rfl, rfl⟩

end Q

/-- `EventBusMulti` with the counters it keeps under its own name in the metric registry. -/
structure EventBusMulti (α : Type u) where
  realtimeBus : RealtimeQueue α
  transactionalBus : Q α
  batchBus : Q α
  dlq : DeadLetterQueue α
  metrics : Metrics

/-- Where `push` stands, between two operations on a ring, a queue or the dead letter queue. -/
inductive PushOp (α : Type u) where
  | measure
  | ringPush
  | ringPop
  | dlqOld (old : α)
  | ringRetry
  | dlqIncoming
  | lockedPush

/-- The operation `push` starts with. -/
def PushOp.first : QueueId → PushOp α
  | .realtime => .measure
  | .transactional | .batch => .lockedPush

/-- The events in the hands of a `push(q, evt)` before an operation. -/
def PushOp.hands (evt : α) : PushOp α → List α
  | .dlqOld old => [evt, old]
  | _ => [evt]

/-- The events left in the hands of a `push(q, evt)` or of its caller after an operation. -/
def PushOp.handsAfter (evt : α) : Progress (PushOp α) Bool → List α
  | .running op => op.hands evt
  | .returned true => []
  | .returned false => [evt]

/-- What an operation of `push(q, evt)` puts into the dead letter queue. -/
def PushOp.dlqPushes (evt : α) : PushOp α → List α
  | .dlqOld old => [old]
  | .dlqIncoming => [evt]
  | _ => []

/-- The queue an operation of `push(q, evt)` works on; for a locked push the one `getQueue`
gives. -/
def PushOp.queue (q : QueueId) : PushOp α → QueueId
  | .lockedPush => if q = .batch then .batch else .transactional
  | _ => .realtime

/-- What a `push` in progress knows of the number of events in the ring: once the overflow
path has taken one out there is room for the retry, and the incoming event is kept. -/
def PushOp.At (held : Nat) : PushOp α → Prop
  | .dlqOld _ => held < realtimeCapacity.val - 1
  | .ringRetry => held < realtimeCapacity.val - 1
  | .dlqIncoming => False
  | _ => True

/-- The first operation needs nothing. -/
theorem PushOp.first_at (q : QueueId) (held : Nat) : (PushOp.first q : PushOp α).At held := by
  cases q <;> trivial

/-- Taking events out of the ring only adds room. -/
theorem PushOp.At.mono {op : PushOp α} {held held' : Nat} (h : op.At held) (hle : held' ≤ held) :
    op.At held' := by
  cases op with
  | dlqOld old => exact Nat.lt_of_le_of_lt hle h
  | ringRetry => exact Nat.lt_of_le_of_lt hle h
  | dlqIncoming => exact h
  | _ => trivial

namespace EventBusMulti

variable {α : Type u}

/-- A new bus; `event_bus.cpp:8–13`. -/
def initial (buffer : Fin realtimeCapacity.val → α) : EventBusMulti α :=
  ⟨.initial buffer, .transactional, .batch, .initial, .initial⟩

/-- `getQueue`; `event_bus.cpp:15–24`. -/
def getQueue (bus : EventBusMulti α) : QueueId → Q α
  | .transactional => bus.transactionalBus
  | .batch => bus.batchBus
  | .realtime => bus.transactionalBus

/-- Write back through the pointer `getQueue` returned. -/
def setQueue (bus : EventBusMulti α) (q : QueueId) (queue : Q α) : EventBusMulti α :=
  match q with
  | .transactional => { bus with transactionalBus := queue }
  | .batch => { bus with batchBus := queue }
  | .realtime => { bus with transactionalBus := queue }

/-- Replace the REALTIME ring. -/
def setRing (bus : EventBusMulti α) (ringBuffer : SpscRingBuffer realtimeCapacity α) :
    EventBusMulti α :=
  { bus with realtimeBus := { bus.realtimeBus with ringBuffer } }

/-- One operation of `push(q, evt)`, `event_bus.cpp:33–111`; a full TRANSACTIONAL queue
either times out or has no step until there is room. -/
def pushOp (bus : EventBusMulti α) (q : QueueId) (evt : α) (timeout : Bool) :
    PushOp α → Option (EventBusMulti α × Progress (PushOp α) Bool)
  | .measure =>
    let used := bus.realtimeBus.ringBuffer.size
    some ({ bus with
      realtimeBus := { bus.realtimeBus with pressure := pressureOf used }
      metrics := { bus.metrics with currentQueueDepth := UInt64.ofNat used } },
      .running .ringPush)
  | .ringPush =>
    match bus.realtimeBus.ringBuffer.push evt with
    | (ring, true) =>
      some ({ bus.setRing ring with metrics := bus.metrics.processed }, .returned true)
    | (ring, false) =>
      some (bus.setRing ring,
        .running (if bus.realtimeBus.policy = .dropOld then .ringPop else .dlqIncoming))
  | .ringPop =>
    match bus.realtimeBus.ringBuffer.pop with
    | (ring, some old) => some (bus.setRing ring, .running (.dlqOld old))
    | (ring, none) => some (bus.setRing ring, .running .ringRetry)
  | .dlqOld old =>
    some ({ bus with dlq := bus.dlq.push old, metrics := bus.metrics.dropped 1 },
      .running .ringRetry)
  | .ringRetry =>
    match bus.realtimeBus.ringBuffer.push evt with
    | (ring, true) =>
      some ({ bus.setRing ring with metrics := bus.metrics.processed }, .returned true)
    | (ring, false) => some (bus.setRing ring, .running .dlqIncoming)
  | .dlqIncoming =>
    some ({ bus with dlq := bus.dlq.push evt, metrics := bus.metrics.dropped 1 },
      .returned false)
  | .lockedPush =>
    match (bus.getQueue q).push evt timeout with
    | .waiting => none
    | .timedOut => some (bus, .returned false)
    | .dropped => some ({ bus with metrics := bus.metrics.dropped 1 }, .returned false)
    | .pushed queue =>
      some ({ bus.setQueue q queue with metrics := bus.metrics.processed }, .returned true)

/-- `pop`, `event_bus.cpp:112–157`, when it returns an event. -/
def pop (bus : EventBusMulti α) : QueueId → Option (α × EventBusMulti α)
  | .realtime =>
    match bus.realtimeBus.ringBuffer.pop with
    | (ring, some evt) => some (evt, bus.setRing ring)
    | (_, none) => none
  | .transactional =>
    bus.transactionalBus.pop.map fun (evt, queue) ↦ (evt, { bus with transactionalBus := queue })
  | .batch => bus.batchBus.pop.map fun (evt, queue) ↦ (evt, { bus with batchBus := queue })

/-- The locked part of `dropBatchFromQueue` on TRANSACTIONAL or BATCH. -/
def takeBatch (bus : EventBusMulti α) (q : QueueId) : List α × EventBusMulti α :=
  let (batch, queue) := (bus.getQueue q).takeBatch
  (batch, bus.setQueue q queue)

/-- The rest of `dropBatchFromQueue` on a batch that is not empty; `event_bus.cpp:205–211`. -/
def flushBatch (bus : EventBusMulti α) (batch : List α) : EventBusMulti α :=
  { bus with
    dlq := bus.dlq.pushBatch (batch.map some)
    metrics := bus.metrics.dropped batch.length }

/-- The events held by a queue. -/
def held (bus : EventBusMulti α) : QueueId → List α
  | .realtime => bus.realtimeBus.ringBuffer.contents
  | .transactional => bus.transactionalBus.dq
  | .batch => bus.batchBus.dq

/-! ### Where the operations leave the events -/

/-- How many events of a kind the three queues hold. -/
def heldCount (bus : EventBusMulti α) (p : α → Bool) : Nat :=
  (bus.held .realtime).countP p + (bus.held .transactional).countP p +
    (bus.held .batch).countP p

/-- A ring `push` puts the event into the ring. -/
private theorem setRing_push {bus : EventBusMulti α} {evt : α}
    {ring : SpscRingBuffer realtimeCapacity α}
    (h : bus.realtimeBus.ringBuffer.push evt = (ring, true)) (p : α → Bool) :
    (bus.setRing ring).heldCount p = bus.heldCount p + [evt].countP p := by
  rcases bus.realtimeBus.ringBuffer.push_contents evt with ⟨-, hfull⟩ | ⟨-, -, hcontents⟩
  · rw [h] at hfull
    cases hfull
  · rw [h] at hcontents
    simp only [heldCount, held, setRing, hcontents, List.countP_append]
    omega

/-- A full ring stays as it is. -/
private theorem setRing_full {bus : EventBusMulti α} {evt : α}
    {ring : SpscRingBuffer realtimeCapacity α}
    (h : bus.realtimeBus.ringBuffer.push evt = (ring, false)) : bus.setRing ring = bus := by
  rcases bus.realtimeBus.ringBuffer.push_contents evt with ⟨-, hfull⟩ | ⟨-, hok, -⟩
  · rw [h] at hfull
    cases hfull
    rfl
  · rw [h] at hok
    cases hok

private theorem setQueue_heldCount {bus : EventBusMulti α} {q : QueueId} {queue : Q α} {evt : α}
    (h : queue.dq = (bus.getQueue q).dq ++ [evt]) (p : α → Bool) :
    (bus.setQueue q queue).heldCount p = bus.heldCount p + [evt].countP p := by
  cases q with
  | realtime =>
    simp only [getQueue] at h
    simp only [heldCount, held, setQueue, h, List.countP_append]
    omega
  | transactional =>
    simp only [getQueue] at h
    simp only [heldCount, held, setQueue, h, List.countP_append]
    omega
  | batch =>
    simp only [getQueue] at h
    simp only [heldCount, held, setQueue, h, List.countP_append]
    omega

/-- An operation of `push` only moves events: every event in its hands or in a queue is
afterwards in its hands, in a queue, or in the dead letter queue. The exception is the
branch that gives up the incoming event and still reports failure. -/
theorem pushOp_conserves {bus bus' : EventBusMulti α} {q : QueueId} {evt : α} {timeout : Bool}
    {op : PushOp α} {progress : Progress (PushOp α) Bool}
    (h : bus.pushOp q evt timeout op = some (bus', progress)) (hop : op ≠ .dlqIncoming)
    (p : α → Bool) :
    bus'.heldCount p + (PushOp.handsAfter evt progress).countP p + (op.dlqPushes evt).countP p =
      bus.heldCount p + (op.hands evt).countP p := by
  cases op with
  | measure =>
    cases h
    rfl
  | ringPush =>
    rw [pushOp] at h
    split at h
    · next ring he =>
      cases h
      exact setRing_push he p
    · next ring he =>
      cases h
      rw [setRing_full he]
      split <;> rfl
  | ringPop =>
    rw [pushOp] at h
    rcases bus.realtimeBus.ringBuffer.pop_contents with ⟨-, he⟩ | ⟨old, ho, hcontents⟩
    · rw [he] at h
      cases h
      rfl
    · split at h
      · next ring x he =>
        cases h
        rw [he] at ho hcontents
        cases ho
        simp only [heldCount, held, setRing, PushOp.handsAfter, PushOp.hands, PushOp.dlqPushes,
          hcontents, List.countP_cons, List.countP_nil]
        omega
      · next ring he =>
        rw [he] at ho
        cases ho
  | dlqOld old =>
    cases h
    simp only [heldCount, held, PushOp.handsAfter, PushOp.hands, PushOp.dlqPushes,
      List.countP_cons, List.countP_nil]
    omega
  | ringRetry =>
    rw [pushOp] at h
    split at h
    · next ring he =>
      cases h
      exact setRing_push he p
    · next ring he =>
      cases h
      rw [setRing_full he]
      rfl
  | dlqIncoming => exact absurd rfl hop
  | lockedPush =>
    rw [pushOp] at h
    split at h
    · cases h
    · cases h
      rfl
    · cases h
      rfl
    · next queue he =>
      cases h
      have hq := setQueue_heldCount (Q.push_pushed he).1 p
      simp only [PushOp.handsAfter, PushOp.hands, PushOp.dlqPushes, List.countP_nil]
      exact hq

/-- Every operation of `push` leaves the policy alone and logs what it gives up. -/
theorem pushOp_frame {bus bus' : EventBusMulti α} {q : QueueId} {evt : α} {timeout : Bool}
    {op : PushOp α} {progress : Progress (PushOp α) Bool}
    (h : bus.pushOp q evt timeout op = some (bus', progress)) :
    bus'.realtimeBus.policy = bus.realtimeBus.policy ∧
    bus'.dlq = (op.dlqPushes evt).foldl DeadLetterQueue.push bus.dlq := by
  cases op with
  | measure =>
    cases h
    exact ⟨rfl, rfl⟩
  | ringPush =>
    rw [pushOp] at h
    split at h <;> cases h <;> exact ⟨rfl, rfl⟩
  | ringPop =>
    rw [pushOp] at h
    split at h <;> cases h <;> exact ⟨rfl, rfl⟩
  | dlqOld old =>
    cases h
    exact ⟨rfl, rfl⟩
  | ringRetry =>
    rw [pushOp] at h
    split at h <;> cases h <;> exact ⟨rfl, rfl⟩
  | dlqIncoming =>
    cases h
    exact ⟨rfl, rfl⟩
  | lockedPush =>
    rw [pushOp] at h
    split at h <;> cases h
    · exact ⟨rfl, rfl⟩
    · exact ⟨rfl, rfl⟩
    · cases q <;> exact ⟨rfl, rfl⟩

/-- An operation of `push` leaves the other queues alone. -/
theorem pushOp_held_of_ne {bus bus' : EventBusMulti α} {q q' : QueueId} {evt : α}
    {timeout : Bool} {op : PushOp α} {progress : Progress (PushOp α) Bool}
    (h : bus.pushOp q evt timeout op = some (bus', progress)) (hne : q' ≠ op.queue q) :
    bus'.held q' = bus.held q' := by
  cases op with
  | lockedPush =>
    rw [pushOp] at h
    split at h <;> cases h
    · rfl
    · rfl
    · cases q <;> cases q' <;> first | rfl | exact absurd rfl hne
  | _ =>
    have hq : q' ≠ .realtime := hne
    rw [pushOp] at h
    cases q' with
    | realtime => exact absurd rfl hq
    | transactional =>
      first
        | cases h; rfl
        | split at h <;> cases h <;> rfl
    | batch =>
      first
        | cases h; rfl
        | split at h <;> cases h <;> rfl

/-- With the DROP_OLD policy the overflow path makes room for its retry. -/
theorem pushOp_at {bus bus' : EventBusMulti α} {q : QueueId} {evt : α} {timeout : Bool}
    {op op' : PushOp α} (h : bus.pushOp q evt timeout op = some (bus', .running op'))
    (hpolicy : bus.realtimeBus.policy = .dropOld)
    (hat : op.At bus.realtimeBus.ringBuffer.contents.length) :
    op'.At bus'.realtimeBus.ringBuffer.contents.length := by
  cases op with
  | measure =>
    cases h
    trivial
  | ringPush =>
    rw [pushOp] at h
    split at h
    · cases h
    · cases h
      rw [if_pos hpolicy]
      trivial
  | ringPop =>
    rw [pushOp] at h
    have hlen := bus.realtimeBus.ringBuffer.contents_length_le
    rcases bus.realtimeBus.ringBuffer.pop_contents with ⟨hempty, he⟩ | ⟨old, ho, hcontents⟩
    · rw [he] at h
      cases h
      change bus.realtimeBus.ringBuffer.contents.length < realtimeCapacity.val - 1
      rw [hempty, List.length_nil]
      decide
    · rw [hcontents, List.length_cons] at hlen
      split at h
      · next ring x he =>
        cases h
        rw [he] at hlen
        exact hlen
      · next ring he =>
        rw [he] at ho
        cases ho
  | dlqOld old =>
    cases h
    exact hat
  | ringRetry =>
    rw [pushOp] at h
    rcases bus.realtimeBus.ringBuffer.push_contents evt with ⟨hfull, -⟩ | ⟨-, hok, -⟩
    · change bus.realtimeBus.ringBuffer.contents.length < realtimeCapacity.val - 1 at hat
      omega
    · split at h
      · cases h
      · next ring he =>
        rw [he] at hok
        cases hok
  | dlqIncoming => exact False.elim hat
  | lockedPush =>
    rw [pushOp] at h
    split at h <;> cases h

private theorem pop_held_of_ne {bus bus' : EventBusMulti α} {q q' : QueueId} {evt : α}
    (h : bus.pop q = some (evt, bus')) (hne : q' ≠ q) : bus'.held q' = bus.held q' := by
  cases q with
  | realtime =>
    rw [pop] at h
    split at h <;> cases h
    cases q' <;> first | rfl | exact absurd rfl hne
  | _ =>
    obtain ⟨x, -, hx⟩ := Option.map_eq_some_iff.mp h
    cases hx
    cases q' <;> first | rfl | exact absurd rfl hne

/-- `pop` takes the oldest event of its queue and leaves the other queues alone. -/
theorem pop_held {bus bus' : EventBusMulti α} {q : QueueId} {evt : α}
    (h : bus.pop q = some (evt, bus')) :
    bus.held q = evt :: bus'.held q ∧ ∀ q', q' ≠ q → bus'.held q' = bus.held q' := by
  refine ⟨?_, fun q' hne ↦ pop_held_of_ne h hne⟩
  cases q with
  | realtime =>
    rw [pop] at h
    rcases bus.realtimeBus.ringBuffer.pop_contents with ⟨-, he⟩ | ⟨item, hitem, hcontents⟩
    · rw [he] at h
      cases h
    · split at h
      · next ring x he =>
        cases h
        rw [he] at hitem hcontents
        cases hitem
        exact hcontents
      · cases h
  | _ =>
    simp only [pop, Option.map_eq_some_iff, Prod.mk.injEq] at h
    obtain ⟨⟨x, queue⟩, hpop, rfl, rfl⟩ := h
    exact (Q.pop_popped hpop).1

/-- `pop` touches neither the policy nor the dead letter queue nor a counter. -/
theorem pop_frame {bus bus' : EventBusMulti α} {q : QueueId} {evt : α}
    (h : bus.pop q = some (evt, bus')) :
    bus'.realtimeBus.policy = bus.realtimeBus.policy ∧ bus'.dlq = bus.dlq ∧
      bus'.metrics = bus.metrics := by
  cases q with
  | realtime =>
    rw [pop] at h
    split at h <;> cases h
    exact ⟨rfl, rfl, rfl⟩
  | _ =>
    obtain ⟨x, -, hx⟩ := Option.map_eq_some_iff.mp h
    cases hx
    exact ⟨rfl, rfl, rfl⟩

/-- A drop from BATCH leaves the other queues alone. -/
theorem takeBatch_held_of_ne (bus : EventBusMulti α) {q : QueueId} (hne : q ≠ .batch) :
    (bus.takeBatch .batch).2.held q = bus.held q := by
  cases q with
  | batch => exact absurd rfl hne
  | _ => rfl

/-- The batch taken by `dropBatchFromQueue` leaves the queues. -/
theorem takeBatch_heldCount (bus : EventBusMulti α) (q : QueueId) (p : α → Bool) :
    (bus.takeBatch q).2.heldCount p + (bus.takeBatch q).1.countP p = bus.heldCount p := by
  have hsplit : ∀ dq : List α, (dq.drop (min dropBatchSize dq.length)).countP p +
      (dq.take (min dropBatchSize dq.length)).countP p = dq.countP p := by
    intro dq
    rw [Nat.add_comm, ← List.countP_append, List.take_append_drop]
  have ht := hsplit bus.transactionalBus.dq
  have hb := hsplit bus.batchBus.dq
  cases q with
  | realtime =>
    simp only [takeBatch, Q.takeBatch, heldCount, held, getQueue, setQueue]
    omega
  | transactional =>
    simp only [takeBatch, Q.takeBatch, heldCount, held, getQueue, setQueue]
    omega
  | batch =>
    simp only [takeBatch, Q.takeBatch, heldCount, held, getQueue, setQueue]
    omega

end EventBusMulti
end EventStreamCore.Events
