import EventStreamCore.Events.Pipeline
import EventStreamCore.Events.Pressure

/-!
# Counting drops

The counter `total_events_dropped` of the bus against the dead letter queue. `push` counts a drop
and records it, `src/core/events/event_bus.cpp:56–76`, but a full BATCH queue is counted at every
attempt and recorded never, `event_bus.cpp:95–99`, while `dispatchLoop` records an event it gives
up without counting it, `src/core/events/dispatcher.cpp:121–126`. The runs are those of the
pipeline, with `dropBatchFromQueue` on all three queues.
-/

namespace EventStreamCore.Events
open EventStreamCore.Lib EventStreamCore.Queues

universe u

variable {α : Type u}

namespace Q

/-- A `push` to a queue with room. -/
theorem push_of_room {q : Q α} (h : q.dq.length < q.capacity) (evt : α) (timeout : Bool) :
    q.push evt timeout = .pushed { q with dq := q.dq ++ [evt] } := by
  unfold push
  split
  · next hfull => exact absurd h (Nat.not_lt.mpr hfull)
  · rfl

/-- A `push` to a full queue does as the policy says. -/
theorem push_of_full {q : Q α} (h : q.capacity ≤ q.dq.length) (evt : α) (timeout : Bool) :
    q.push evt timeout =
      match q.policy with
      | .blockProducer => if timeout then .timedOut else .waiting
      | .dropNew => .dropped
      | .dropOld => .pushed { q with dq := q.dq ++ [evt] } := by
  unfold push
  split
  · rfl
  · next hroom => exact absurd h hroom

end Q

/-- The two counters. -/
def Metrics.counts (m : Metrics) : UInt64 × UInt64 := (m.totalEventsProcessed, m.totalEventsDropped)

/-- One more event processed. -/
theorem Metrics.counts_processed {m : Metrics} {processed dropped : Nat}
    (h : m.counts = (UInt64.ofNat processed, UInt64.ofNat dropped)) :
    m.processed.counts = (UInt64.ofNat (processed + 1), UInt64.ofNat dropped) := by
  obtain ⟨hprocessed, hdropped⟩ := Prod.mk.inj h
  rw [UInt64.ofNat_add, ← hprocessed, ← hdropped]
  rfl

/-- One more event dropped. -/
theorem Metrics.counts_dropped {m : Metrics} {processed dropped : Nat}
    (h : m.counts = (UInt64.ofNat processed, UInt64.ofNat dropped)) :
    (m.dropped 1).counts = (UInt64.ofNat processed, UInt64.ofNat (dropped + 1)) := by
  obtain ⟨hprocessed, hdropped⟩ := Prod.mk.inj h
  rw [UInt64.ofNat_add, ← hprocessed, ← hdropped]
  rfl

/-- What an operation of `push` does to the counters: it goes on without counting, or counts the
event it took out of the ring; it accepts the event and counts it; it gives the event up and
counts that; or it times out. -/
theorem EventBusMulti.pushOp_counts {bus bus' : EventBusMulti α} {q : QueueId} {evt : α}
    {timeout : Bool} {op : PushOp α} {progress : Progress (PushOp α) Bool}
    (h : bus.pushOp q evt timeout op = some (bus', progress)) :
    (∃ op', progress = .running op' ∧ op.dlqPushes evt = [] ∧
      bus'.metrics.counts = bus.metrics.counts) ∨
    (∃ old, op = .dlqOld old ∧ progress = .running .ringRetry ∧
      bus'.metrics.counts = (bus.metrics.dropped 1).counts) ∨
    (progress = .returned true ∧ op.dlqPushes evt = [] ∧
      bus'.metrics.counts = bus.metrics.processed.counts) ∨
    (op = .dlqIncoming ∧ progress = .returned false ∧
      bus'.metrics.counts = (bus.metrics.dropped 1).counts) ∨
    (op = .lockedPush ∧ progress = .returned false ∧ bus' = bus ∧
      (bus.getQueue q).policy = .blockProducer) ∨
    (op = .lockedPush ∧ progress = .returned false ∧
      bus'.metrics.counts = (bus.metrics.dropped 1).counts ∧
      (bus.getQueue q).policy = .dropNew ∧
      (bus.getQueue q).capacity ≤ (bus.getQueue q).dq.length) := by
  cases op with
  | measure =>
    cases h
    exact .inl ⟨_, rfl, rfl, rfl⟩
  | ringPush =>
    rw [pushOp] at h
    split at h <;> cases h
    · exact .inr (.inr (.inl ⟨rfl, rfl, rfl⟩))
    · exact .inl ⟨_, rfl, rfl, rfl⟩
  | ringPop =>
    rw [pushOp] at h
    split at h <;> cases h
    · exact .inl ⟨_, rfl, rfl, rfl⟩
    · exact .inl ⟨_, rfl, rfl, rfl⟩
  | dlqOld old =>
    cases h
    exact .inr (.inl ⟨old, rfl, rfl, rfl⟩)
  | ringRetry =>
    rw [pushOp] at h
    split at h <;> cases h
    · exact .inr (.inr (.inl ⟨rfl, rfl, rfl⟩))
    · exact .inl ⟨_, rfl, rfl, rfl⟩
  | dlqIncoming =>
    cases h
    exact .inr (.inr (.inr (.inl ⟨rfl, rfl, rfl⟩)))
  | lockedPush =>
    rw [pushOp] at h
    by_cases hfull : (bus.getQueue q).capacity ≤ (bus.getQueue q).dq.length
    · rw [Q.push_of_full hfull] at h
      cases hpolicy : (bus.getQueue q).policy with
      | blockProducer =>
        rw [hpolicy] at h
        cases timeout <;> cases h
        exact .inr (.inr (.inr (.inr (.inl ⟨rfl, rfl, rfl, rfl⟩))))
      | dropNew =>
        rw [hpolicy] at h
        cases h
        exact .inr (.inr (.inr (.inr (.inr ⟨rfl, rfl, rfl, rfl, hfull⟩))))
      | dropOld =>
        rw [hpolicy] at h
        cases h
        exact .inr (.inr (.inl ⟨rfl, rfl, rfl⟩))
    · rw [Q.push_of_room (Nat.lt_of_not_le hfull)] at h
      cases h
      exact .inr (.inr (.inl ⟨rfl, rfl, rfl⟩))

/-- The policies of TRANSACTIONAL and BATCH on every bus. -/
structure EventBusMulti.Policies (bus : EventBusMulti α) : Prop where
  transactional : bus.transactionalBus.policy = .blockProducer
  batch : bus.batchBus.policy = .dropNew

namespace EventBusMulti.Policies

variable {bus bus' : EventBusMulti α}

private theorem policy_kept (policy : OverflowPolicy) : Q.Kept fun q : Q α ↦ q.policy = policy := by
  refine ⟨?_, ?_, fun h ↦ h⟩
  · intro q q' evt timeout h hq
    exact (Q.push_pushed hq).2.2.trans h
  · intro q q' evt h hq
    exact (Q.pop_popped hq).2.2.trans h

private theorem policies_iff : bus.Policies ↔
    bus.Queues (fun q ↦ q.policy = .blockProducer) fun q ↦ q.policy = .dropNew :=
  ⟨fun h ↦ ⟨h.transactional, h.batch⟩, fun h ↦ ⟨h.transactional, h.batch⟩⟩

/-- No operation of `push` changes a policy. -/
theorem pushOp (h : bus.Policies) {q : QueueId} {evt : α} {timeout : Bool} {op : PushOp α}
    {progress : Progress (PushOp α) Bool}
    (hop : bus.pushOp q evt timeout op = some (bus', progress)) : bus'.Policies :=
  policies_iff.mpr ((policies_iff.mp h).pushOp (policy_kept _) (policy_kept _) hop)

/-- `pop` changes no policy. -/
theorem pop (h : bus.Policies) {q : QueueId} {evt : α} (hpop : bus.pop q = some (evt, bus')) :
    bus'.Policies :=
  policies_iff.mpr ((policies_iff.mp h).pop (policy_kept _) (policy_kept _) hpop)

/-- Taking a batch out of a queue changes no policy. -/
theorem takeBatch (h : bus.Policies) (q : QueueId) : (bus.takeBatch q).2.Policies :=
  policies_iff.mpr ((policies_iff.mp h).takeBatch (policy_kept _) (policy_kept _) q)

/-- Popping from the ring changes no policy. -/
theorem popBatch (h : bus.Policies) (n : Nat) : (bus.popBatch n).2.Policies :=
  policies_iff.mpr ((policies_iff.mp h).popBatch n)

end EventBusMulti.Policies

/-- A step of the pipeline, or the loop of a `dropBatchFromQueue(REALTIME)`. -/
inductive DropLabel where
  | pipe (l : PipelineLabel)
  | dropRealtime

/-- A `push` to BATCH finds room, and no event is given up. -/
def DispatcherPc.Accounted (bus : EventBusMulti Item) : DispatcherPc → Prop
  | .push _ queueId _ _ => queueId = .batch → bus.batchBus.dq.length < bus.batchBus.capacity
  | .dlq _ => False
  | .idle => True
  | .route _ => True

instance (bus : EventBusMulti Item) (pc : DispatcherPc) : Decidable (pc.Accounted bus) :=
  match pc with
  | .push _ queueId _ _ => inferInstanceAs
      (Decidable (queueId = .batch → bus.batchBus.dq.length < bus.batchBus.capacity))
  | .dlq _ => .isFalse id
  | .idle => .isTrue trivial
  | .route _ => .isTrue trivial

namespace Pipeline

/-- The events a `dropBatchFromQueue(REALTIME)` takes; `event_bus.cpp:163–171`. -/
def dropRealtime (s : Pipeline) : Pipeline :=
  let (batch, bus) := s.bus.popBatch dropBatchSize
  { s with bus, droppers := s.droppers ++ [batch] }

/-- One step. -/
def stepDrop (topicTable : Option TopicTable) (s : Pipeline) : DropLabel → Option Pipeline
  | .pipe l => s.step topicTable l
  | .dropRealtime => some s.dropRealtime

/-- No `push` finds BATCH full, and `dispatchLoop` gives no event up. -/
def Accounted (s : Pipeline) : DropLabel → Prop
  | .pipe (.dispatcher _) => s.dispatcher.Accounted s.bus
  | _ => True

instance (s : Pipeline) (l : DropLabel) : Decidable (s.Accounted l) :=
  match l with
  | .pipe (.dispatcher _) => inferInstanceAs (Decidable (s.dispatcher.Accounted s.bus))
  | .pipe (.tryPush _) => .isTrue trivial
  | .pipe (.consume _) => .isTrue trivial
  | .pipe (.dropTake _) => .isTrue trivial
  | .pipe (.dropFlush _) => .isTrue trivial
  | .dropRealtime => .isTrue trivial

end Pipeline

/-- All runs of the pipeline with drops from all queues. -/
def dropRuns (topicTable : Option TopicTable) (buffer : Fin realtimeCapacity.val → Item) :
    Machine Pipeline DropLabel where
  start := Pipeline.initial buffer
  step := Pipeline.stepDrop topicTable

/-- Every event in the dead letter queue was counted, and nothing else. -/
structure Pipeline.DropsMatch (s : Pipeline) : Prop where
  policies : s.bus.Policies
  dlq : s.bus.dlq = .ofHistory s.dlqPushes
  counted : s.bus.metrics.totalEventsDropped = UInt64.ofNat s.dlqPushes.length

namespace Pipeline.DropsMatch

variable {s t : Pipeline}

private theorem drops_initial (buffer : Fin realtimeCapacity.val → Item) :
    (Pipeline.initial buffer).DropsMatch := ⟨⟨rfl, rfl⟩, rfl, rfl⟩

/-- Only the bus and the record of the dead letter queue matter. -/
private theorem of_eq (h : s.DropsMatch) (hbus : t.bus = s.bus)
    (hpushes : t.dlqPushes = s.dlqPushes) : t.DropsMatch := by
  refine ⟨?_, ?_, ?_⟩
  · rw [hbus]
    exact h.policies
  · rw [hbus, hpushes]
    exact h.dlq
  · rw [hbus, hpushes]
    exact h.counted

private theorem drops_pushItem {item : Item} {queueId : QueueId} {retryCount : Nat}
    {timeout : Bool} {op : PushOp Item} (h : s.DropsMatch)
    (hroom : queueId = .batch → s.bus.batchBus.dq.length < s.bus.batchBus.capacity)
    (ht : s.pushItem item queueId retryCount timeout op = some t) : t.DropsMatch := by
  obtain ⟨⟨bus, progress⟩, hbus, rfl⟩ := Option.map_eq_some_iff.mp ht
  have hone : ∀ x : Item, (bus.metrics.counts = (s.bus.metrics.dropped 1).counts) →
      bus.metrics.totalEventsDropped = UInt64.ofNat (s.dlqPushes ++ [x]).length := by
    intro x hcounts
    rw [List.length_append, UInt64.ofNat_add, ← h.counted]
    exact congrArg Prod.snd hcounts
  refine ⟨h.policies.pushOp hbus, ?_, ?_⟩
  · change bus.dlq = DeadLetterQueue.ofHistory (s.dlqPushes ++ op.dlqPushes item)
    rw [(EventBusMulti.pushOp_frame hbus).2, h.dlq, DeadLetterQueue.ofHistory,
      DeadLetterQueue.ofHistory, List.foldl_append]
  · change bus.metrics.totalEventsDropped = UInt64.ofNat (s.dlqPushes ++ op.dlqPushes item).length
    obtain ⟨op', -, hpushes, hcounts⟩ | ⟨old, rfl, -, hcounts⟩ | ⟨-, hpushes, hcounts⟩ |
      ⟨rfl, -, hcounts⟩ | ⟨rfl, -, rfl, -⟩ | ⟨rfl, -, -, hpolicy, hfull⟩ :=
      EventBusMulti.pushOp_counts hbus
    · rw [hpushes, List.append_nil, ← h.counted]
      exact congrArg Prod.snd hcounts
    · exact hone old hcounts
    · rw [hpushes, List.append_nil, ← h.counted]
      exact congrArg Prod.snd hcounts
    · exact hone item hcounts
    · rw [show PushOp.lockedPush.dlqPushes item = [] from rfl, List.append_nil]
      exact h.counted
    · -- only BATCH drops what is new, and it has room
      cases queueId with
      | batch => exact absurd (hroom rfl) (Nat.not_lt.mpr hfull)
      | _ =>
        rw [show s.bus.getQueue _ = s.bus.transactionalBus from rfl, h.policies.transactional]
          at hpolicy
        cases hpolicy

private theorem drops_stepDispatcher {topicTable : Option TopicTable} {timeout : Bool}
    (h : s.DropsMatch) (hg : s.Accounted (.pipe (.dispatcher timeout)))
    (ht : s.stepDispatcher topicTable timeout = some t) : t.DropsMatch := by
  unfold stepDispatcher at ht
  change s.dispatcher.Accounted s.bus at hg
  split at ht
  · cases ht
    unfold popInbound
    split
    · exact h
    · exact h.of_eq rfl rfl
    · exact h.of_eq rfl rfl
  · cases ht
    exact h.of_eq rfl rfl
  · next item queueId retryCount op hd =>
    rw [hd] at hg
    exact drops_pushItem h hg ht
  · next item hd =>
    rw [hd] at hg
    exact hg.elim

private theorem drops_taken (h : s.DropsMatch) {bus : EventBusMulti Item} (hpolicies : bus.Policies)
    (hdlq : bus.dlq = s.bus.dlq) (hmetrics : bus.metrics = s.bus.metrics)
    (droppers : List (List Item)) : DropsMatch { s with bus, droppers } :=
  ⟨hpolicies, hdlq.trans h.dlq, (congrArg _ hmetrics).trans h.counted⟩

private theorem drops_dropFlush {index : Nat} (h : s.DropsMatch)
    (ht : s.dropFlush index = some t) : t.DropsMatch := by
  obtain ⟨batch, hbatch, rfl⟩ := Option.map_eq_some_iff.mp ht
  by_cases hempty : batch.isEmpty
  · rw [List.isEmpty_iff.mp hempty]
    exact h.of_eq rfl (List.append_nil _)
  · simp only [hempty, Bool.false_eq_true, if_false]
    refine ⟨⟨h.policies.transactional, h.policies.batch⟩, ?_, ?_⟩
    · rw [DeadLetterQueue.ofHistory_append, ← h.dlq]
      rfl
    · rw [List.length_append, UInt64.ofNat_add, ← h.counted]
      rfl

private theorem popBatch_frame (n : Nat) (bus : EventBusMulti Item) :
    (bus.popBatch n).2.dlq = bus.dlq ∧ (bus.popBatch n).2.metrics = bus.metrics := by
  induction n generalizing bus with
  | zero => exact ⟨rfl, rfl⟩
  | succ n ih =>
    unfold EventBusMulti.popBatch
    split
    · exact ⟨rfl, rfl⟩
    · next ring evt hpop => exact ih (bus.setRing ring)

/-- A step that finds room in BATCH and gives no event up keeps the accounts. -/
theorem step {topicTable : Option TopicTable} {l : DropLabel} (h : s.DropsMatch)
    (hg : s.Accounted l) (ht : s.stepDrop topicTable l = some t) : t.DropsMatch := by
  cases l with
  | dropRealtime =>
    cases ht
    obtain ⟨hdlq, hmetrics⟩ := popBatch_frame dropBatchSize s.bus
    exact drops_taken h (h.policies.popBatch _) hdlq hmetrics _
  | pipe l =>
    cases l with
    | tryPush evt =>
      cases ht
      unfold tryPush
      split
      · exact h
      · cases evt with
        | none => exact h.of_eq rfl rfl
        | some event => exact h.of_eq rfl rfl
    | dispatcher timeout => exact drops_stepDispatcher h hg ht
    | consume queueId =>
      obtain ⟨⟨item, bus⟩, hpop, rfl⟩ := Option.map_eq_some_iff.mp ht
      obtain ⟨-, hdlq, hmetrics⟩ := EventBusMulti.pop_frame hpop
      exact ⟨h.policies.pop hpop, hdlq.trans h.dlq, (congrArg _ hmetrics).trans h.counted⟩
    | dropTake queueId =>
      cases queueId with
      | realtime => cases ht
      | transactional =>
        cases ht
        exact drops_taken h (h.policies.takeBatch .transactional) rfl rfl _
      | batch =>
        cases ht
        exact drops_taken h (h.policies.takeBatch .batch) rfl rfl _
    | dropFlush index => exact drops_dropFlush h ht

end Pipeline.DropsMatch

/-- In every run in which no `push` finds BATCH full and `dispatchLoop` gives no event up, the
drops counted by the bus are those in the dead letter queue. -/
theorem drops_counted_once (topicTable : Option TopicTable)
    (buffer : Fin realtimeCapacity.val → Item) (s : Pipeline)
    (h : (dropRuns topicTable buffer).ReachableWith Pipeline.Accounted s) :
    s.bus.metrics.totalEventsDropped = UInt64.ofNat s.dlqPushes.length ∧
    s.bus.dlq.totalDropped = UInt64.ofNat s.dlqPushes.length := by
  have hmatch : s.DropsMatch :=
    Machine.ReachableWith.invariant (Pipeline.DropsMatch.drops_initial buffer)
      (fun _ _ _ hs hg ht ↦ hs.step hg ht) h
  refine ⟨hmatch.counted, ?_⟩
  rw [hmatch.dlq, DeadLetterQueue.totalDropped_ofHistory]

/-- A CRITICAL event is dropped from the ring. -/
theorem drops_counted_once_realtime : ∃ s : Pipeline,
    (dropRuns none fun _ ↦ ⟨0, ⟨⟨.tcp, .batch, 0, 0, 0, 0, 0⟩, [], [], [], 0⟩⟩).ReachableWith
      Pipeline.Accounted s ∧
    s.dlqPushes.length = 1 ∧ s.bus.metrics.totalEventsDropped = 1 ∧ s.bus.dlq.totalDropped = 1 := by
  let m := dropRuns none fun _ ↦ ⟨0, ⟨⟨.tcp, .batch, 0, 0, 0, 0, 0⟩, [], [], [], 0⟩⟩
  have hrun : (m.runWith Pipeline.Accounted m.start
      [.pipe (.tryPush (some ⟨⟨.tcp, .critical, 1, 0, 0, 0, 0⟩, [], [], [], 0⟩)),
        .pipe (.dispatcher false), .pipe (.dispatcher false), .pipe (.dispatcher false),
        .pipe (.dispatcher false), .dropRealtime, .pipe (.dropFlush 0)]).map
      (fun s ↦ s.dlqPushes.length) = some 1 := by
    decide +kernel
  obtain ⟨s, hrun, hs⟩ := Option.map_eq_some_iff.mp hrun
  have hreach := Machine.ReachableWith.run .start hrun
  obtain ⟨hcounted, hdlq⟩ := drops_counted_once _ _ s hreach
  rw [hs] at hcounted hdlq
  exact ⟨s, hreach, hs, hcounted, hdlq⟩

/-! ### An event given up without being counted -/

/-- TRANSACTIONAL holds `n` events, the dispatcher is between two events, and nothing was
dropped. -/
private structure Backlog (s : Pipeline) (n : Nat) : Prop where
  inbound : s.inbound = []
  dispatcher : s.dispatcher = .idle
  length : s.bus.transactionalBus.dq.length = n
  capacity : s.bus.transactionalBus.capacity = 131072
  policy : s.bus.transactionalBus.policy = .blockProducer
  dropped : s.bus.metrics.totalEventsDropped = 0
  dlq : s.bus.dlq = .initial

/-- A MEDIUM event. -/
private def medium : Event := ⟨⟨.tcp, .medium, 1, 0, 0, 0, 0⟩, [], [], [], 0⟩

private theorem route_medium (rtPressure : PressureLevel) :
    Dispatcher.route none rtPressure medium = (medium, .transactional) := by
  cases rtPressure <;> rfl

/-- The dispatcher pops and routes a MEDIUM event. -/
private theorem exists_routed {buffer : Fin realtimeCapacity.val → Item} {s : Pipeline} {n : Nat}
    (hreach : (dropRuns none buffer).Reachable s) (h : Backlog s n) :
    ∃ t item, (dropRuns none buffer).Reachable t ∧ t.inbound = [] ∧ t.bus = s.bus ∧
      t.dispatcher = .push item .transactional 0 .lockedPush := by
  obtain ⟨inbound, bus, dispatcher, droppers, nextTicket, popped, dlqPushes⟩ := s
  obtain ⟨rfl, rfl, -, -, -, -, -⟩ := h
  have hrun : (dropRuns none buffer).run ⟨[], bus, .idle, droppers, nextTicket, popped, dlqPushes⟩
      [.pipe (.tryPush (some medium)), .pipe (.dispatcher false), .pipe (.dispatcher false)] =
        some _ := rfl
  refine ⟨_, ⟨nextTicket, medium⟩, hreach.run hrun, rfl, rfl, ?_⟩
  exact congrArg
    (fun r : Event × QueueId ↦ DispatcherPc.push ⟨nextTicket, r.1⟩ r.2 0 (.first r.2))
    (route_medium _)

/-- The event goes into a queue with room. -/
private theorem exists_fill {buffer : Fin realtimeCapacity.val → Item} {s : Pipeline} {n : Nat}
    (hreach : (dropRuns none buffer).Reachable s) (h : Backlog s n) (hn : n < 131072) :
    ∃ t, (dropRuns none buffer).Reachable t ∧ Backlog t (n + 1) := by
  obtain ⟨t, item, htreach, hinbound, hbus, hdispatcher⟩ := exists_routed hreach h
  have hroom : t.bus.transactionalBus.dq.length < t.bus.transactionalBus.capacity := by
    rw [hbus, h.length, h.capacity]
    exact hn
  have hstep : t.step none (.dispatcher false) = some
      { t with
        bus :=
          { t.bus with
            transactionalBus :=
              { t.bus.transactionalBus with dq := t.bus.transactionalBus.dq ++ [item] }
            metrics := t.bus.metrics.processed }
        dispatcher := .idle
        dlqPushes := t.dlqPushes ++ [] } := by
    simp only [Pipeline.step, Pipeline.stepDispatcher, hdispatcher, Pipeline.pushItem,
      EventBusMulti.pushOp, EventBusMulti.getQueue, Q.push_of_room hroom]
    rfl
  refine ⟨_, htreach.step (l := .pipe (.dispatcher false)) hstep, ?_⟩
  rw [hbus]
  refine ⟨hinbound, rfl, ?_, h.capacity, h.policy, h.dropped, h.dlq⟩
  change (s.bus.transactionalBus.dq ++ [item]).length = n + 1
  rw [List.length_append, h.length]
  rfl

private theorem exists_fills {buffer : Fin realtimeCapacity.val → Item} (n : Nat)
    (hn : n ≤ 131072) : ∃ t, (dropRuns none buffer).Reachable t ∧ Backlog t n := by
  induction n with
  | zero => exact ⟨_, .start, rfl, rfl, rfl, rfl, rfl, rfl, rfl⟩
  | succ n ih =>
    obtain ⟨s, hreach, hs⟩ := ih (by omega)
    exact exists_fill hreach hs (by omega)

/-- A wait on a full queue expires. -/
private theorem exists_timeout {buffer : Fin realtimeCapacity.val → Item} {s : Pipeline}
    {item : Item} {retryCount : Nat} (hreach : (dropRuns none buffer).Reachable s)
    (hfull : s.bus.transactionalBus.capacity ≤ s.bus.transactionalBus.dq.length)
    (hpolicy : s.bus.transactionalBus.policy = .blockProducer)
    (hdispatcher : s.dispatcher = .push item .transactional retryCount .lockedPush) :
    ∃ t, (dropRuns none buffer).Reachable t ∧ t.bus = s.bus ∧
      t.dispatcher = if retryCount + 1 < Dispatcher.maxRetries
        then .push item .transactional (retryCount + 1) .lockedPush else .dlq item := by
  have hstep : s.step none (.dispatcher true) = some
      { s with
        dispatcher := if retryCount + 1 < Dispatcher.maxRetries
          then .push item .transactional (retryCount + 1) .lockedPush else .dlq item
        dlqPushes := s.dlqPushes ++ [] } := by
    simp only [Pipeline.step, Pipeline.stepDispatcher, hdispatcher, Pipeline.pushItem,
      EventBusMulti.pushOp, EventBusMulti.getQueue, Q.push_of_full hfull, hpolicy]
    rfl
  exact ⟨_, hreach.step (l := .pipe (.dispatcher true)) hstep, rfl, rfl⟩

/-- Three waits on a full queue expire and the dispatcher gives the event up. -/
private theorem exists_given_up {buffer : Fin realtimeCapacity.val → Item} {s : Pipeline}
    (hreach : (dropRuns none buffer).Reachable s) (h : Backlog s 131072) :
    ∃ t, (dropRuns none buffer).Reachable t ∧ t.dispatcher = .idle ∧
      t.bus.metrics.totalEventsDropped = 0 ∧ t.bus.dlq.totalDropped = 1 := by
  have hfull : s.bus.transactionalBus.capacity ≤ s.bus.transactionalBus.dq.length :=
    Nat.le_of_eq (h.capacity.trans h.length.symm)
  have hpolicy := h.policy
  have hdlq := h.dlq
  have hdropped := h.dropped
  obtain ⟨s₀, item, hreach₀, -, hbus₀, hpc₀⟩ := exists_routed hreach h
  rw [← hbus₀] at hfull hpolicy hdlq hdropped
  obtain ⟨s₁, hreach₁, hbus₁, hpc₁⟩ := exists_timeout hreach₀ hfull hpolicy hpc₀
  rw [← hbus₁] at hfull hpolicy hdlq hdropped
  obtain ⟨s₂, hreach₂, hbus₂, hpc₂⟩ := exists_timeout hreach₁ hfull hpolicy hpc₁
  rw [← hbus₂] at hfull hpolicy hdlq hdropped
  obtain ⟨s₃, hreach₃, hbus₃, hpc₃⟩ := exists_timeout hreach₂ hfull hpolicy hpc₂
  rw [← hbus₃] at hdlq hdropped
  change s₃.dispatcher = .dlq item at hpc₃
  have hstep : s₃.step none (.dispatcher true) = some
      { s₃ with
        bus := { s₃.bus with dlq := s₃.bus.dlq.push item }
        dlqPushes := s₃.dlqPushes ++ [item]
        dispatcher := .idle } := by
    rw [Pipeline.step, Pipeline.stepDispatcher, hpc₃]
  refine ⟨_, hreach₃.step (l := .pipe (.dispatcher true)) hstep, rfl, hdropped, ?_⟩
  rw [hdlq]
  rfl

/-- With TRANSACTIONAL full the dispatcher puts an event into the dead letter queue that the bus
does not count. -/
theorem given_up_not_counted : ∃ s : Pipeline,
    (dropRuns none fun _ ↦ ⟨0, ⟨⟨.tcp, .batch, 0, 0, 0, 0, 0⟩, [], [], [], 0⟩⟩).Reachable s ∧
    s.dispatcher = .idle ∧ s.bus.metrics.totalEventsDropped = 0 ∧ s.bus.dlq.totalDropped = 1 := by
  obtain ⟨s, hreach, hs⟩ := exists_fills 131072 (Nat.le_refl _)
  exact exists_given_up hreach hs

end EventStreamCore.Events
