import EventStreamCore.Events.EventBus
import EventStreamCore.Metrics.Histogram
import EventStreamCore.Processor.Handler
import EventStreamCore.Queues.Dedup
import EventStreamCore.Storage.Storage

/-!
# The realtime and the transactional processor

`RealtimeProcessor::process`, `src/core/processor/realtime.cpp:30–108`, and
`TransactionalProcessor::process`, `src/core/processor/transactional.cpp:23–107`. A call is
given everything it does not decide by itself: the event, the handlers registered at the time,
the clock readings, and whether the disk fails a write. Thread binding, log lines, back-off
sleeps and metric timestamps are left out.
-/

namespace EventStreamCore.Processor
open EventStreamCore.Events EventStreamCore.Queues EventStreamCore.Storage
open EventStreamCore.Metrics (LatencyHistogram)

/-- Which processor, for its `name()`. -/
inductive ProcessorName where
  | realtime | transactional | batch
deriving DecidableEq, Repr

/-- A call of `ProcessedEventStream::notifyProcessed` or `notifyDropped`. -/
inductive Notification where
  | processed (event : Event) (processor : ProcessorName)
  | dropped (event : Event) (processor : ProcessorName) (reason : String)
deriving DecidableEq, Repr

/-- What the processors write to: the storage and the dead letter queue they were configured
with, and the notifications made. -/
structure Sinks where
  storage : Option StorageEngine
  dlq : Option (DeadLetterQueue Event)
  notifications : List Notification

namespace Sinks

/-- `if (dlq_) dlq_->push(event)`. -/
def push (io : Sinks) (event : Event) : Sinks :=
  { io with dlq := io.dlq.map fun dlq ↦ dlq.push event }

/-- `if (storage_) storage_->storeEvent(event)`; there is no result when it throws. -/
def storeEvent (io : Sinks) (event : Event) (fails : Bool) : Option Sinks :=
  match io.storage with
  | none => some io
  | some storage => (storage.storeEvent event fails).map fun s ↦ { io with storage := some s }

/-- `notifyProcessed`. -/
def notifyProcessed (io : Sinks) (event : Event) (processor : ProcessorName) : Sinks :=
  { io with notifications := io.notifications ++ [.processed event processor] }

/-- `notifyDropped`. -/
def notifyDropped (io : Sinks) (event : Event) (processor : ProcessorName) (reason : String) :
    Sinks :=
  { io with notifications := io.notifications ++ [.dropped event processor reason] }

end Sinks

/-- How a call of `process` ends. -/
inductive Outcome where
  | returned | threw
deriving DecidableEq, Repr

/-- What one call of `process` reads. `elapsedMs` is the time since the start of the call at
the check of the deadline, `breachNs` the clock at the alert that reports its breach, `storeFails`
the result of the write if there is one. -/
structure ProcessCall where
  event : Event
  handlers : EventHandlerRegistry
  nowMs : UInt64
  nowNs : UInt64
  breachNs : UInt64
  elapsedMs : Int
  storeFails : Bool

/-- The handler of a call's event. -/
def ProcessCall.handler (c : ProcessCall) : EventHandler :=
  EventHandlerRegistry.getOrDefault c.handlers c.event.topic

/-- Do validation, rules and handler accept the event? -/
def ProcessCall.accepted (c : ProcessCall) : Bool :=
  (c.handler.validate c.event).valid && (c.handler.checkRules c.event).valid &&
    (c.handler.handle c.event 1).outcome.accepts

/-- `Alert`; `alert.hpp:13–20`. -/
structure Alert where
  level : AlertLevel
  message : String
  source : Bytes
  eventId : UInt32
  timestampNs : UInt64
  context : Bytes
deriving DecidableEq, Repr

/-- `RealtimeProcessor`, with the alerts its handler was given. -/
structure RealtimeProcessor where
  maxProcessingMs : Int
  metrics : Metrics
  alerts : List Alert

namespace RealtimeProcessor

/-- `emitAlert`, which reads the clock itself. -/
def emitAlert (p : RealtimeProcessor) (level : AlertLevel) (message : String) (event : Event)
    (nowNs : UInt64) : RealtimeProcessor :=
  { p with
    alerts := p.alerts ++ [⟨level, message, event.topic, event.header.id, nowNs, event.body⟩] }

/-- Give the event up: count it, push it to the dead letter queue, notify. -/
def drop (p : RealtimeProcessor) (io : Sinks) (c : ProcessCall) (reason : String) :
    RealtimeProcessor × Sinks × Outcome :=
  ({ p with metrics := p.metrics.dropped 1 },
    (io.push c.event).notifyDropped c.event .realtime reason, .returned)

/-- The deadline check and the write; `realtime.cpp:91–108`. -/
def finish (p : RealtimeProcessor) (io : Sinks) (c : ProcessCall) :
    RealtimeProcessor × Sinks × Outcome :=
  if c.elapsedMs > p.maxProcessingMs then
    let message := "SLA breach: " ++ toString c.elapsedMs ++ "ms > " ++
      toString p.maxProcessingMs ++ "ms"
    (p.emitAlert .warning message c.event c.breachNs).drop io c "sla_breach"
  else
    match io.storeEvent c.event c.storeFails with
    | none => (p, io, .threw)
    | some io => (p, io.notifyProcessed c.event .realtime, .returned)

/-- `process`. -/
def process (p : RealtimeProcessor) (io : Sinks) (c : ProcessCall) :
    RealtimeProcessor × Sinks × Outcome :=
  let v := c.handler.validate c.event
  if !v.valid then p.drop io c v.error
  else
    let r := c.handler.checkRules c.event
    if !r.valid then p.drop io c r.error
    else
      let result := c.handler.handle c.event 1
      match result.outcome with
      | .alert =>
        let p := p.emitAlert result.alertLevel result.message c.event c.nowNs
        { p with metrics := p.metrics.processed }.finish io c
      | .fail => p.drop io c result.message
      | .drop => p.drop io c result.message
      | .success => { p with metrics := p.metrics.processed }.finish io c

/-- Do the checks before the write let an event through? -/
def stores (p : RealtimeProcessor) (c : ProcessCall) : Bool :=
  (c.handler.validate c.event).valid && (c.handler.checkRules c.event).valid &&
    (c.handler.handle c.event 1).outcome.accepts && decide (c.elapsedMs ≤ p.maxProcessingMs)

/-- What the end of `process` can do. -/
private theorem finish_cases (p : RealtimeProcessor) (io : Sinks) (c : ProcessCall) :
    (p.maxProcessingMs < c.elapsedMs ∧ ∃ p' reason, p.finish io c =
      (p', (io.push c.event).notifyDropped c.event .realtime reason, .returned)) ∨
    (c.elapsedMs ≤ p.maxProcessingMs ∧ io.storeEvent c.event c.storeFails = none ∧
      p.finish io c = (p, io, .threw)) ∨
    (c.elapsedMs ≤ p.maxProcessingMs ∧ ∃ io', io.storeEvent c.event c.storeFails = some io' ∧
      p.finish io c = (p, io'.notifyProcessed c.event .realtime, .returned)) := by
  unfold finish
  by_cases hlate : c.elapsedMs > p.maxProcessingMs
  · left
    rw [if_pos hlate]
    exact ⟨hlate, _, _, rfl⟩
  · right
    rw [if_neg hlate]
    have hle := Int.not_lt.mp hlate
    cases hstore : io.storeEvent c.event c.storeFails with
    | none => exact .inl ⟨hle, rfl, rfl⟩
    | some io' => exact .inr ⟨hle, io', rfl, rfl⟩

/-- The checks before the deadline: the event is given up, or counted and taken to the end. -/
theorem process_checks (p : RealtimeProcessor) (io : Sinks) (c : ProcessCall) :
    (c.accepted = false ∧ ∃ reason, p.process io c = p.drop io c reason) ∨
    (c.accepted = true ∧ ∃ alerts, p.process io c =
      { p with metrics := p.metrics.processed, alerts := alerts }.finish io c) := by
  by_cases hv : (c.handler.validate c.event).valid
  · by_cases hr : (c.handler.checkRules c.event).valid
    · simp only [ProcessCall.accepted, process, hv, hr]
      cases ho : (c.handler.handle c.event 1).outcome with
      | success => exact .inr ⟨rfl, _, rfl⟩
      | alert => exact .inr ⟨rfl, _, rfl⟩
      | fail => exact .inl ⟨rfl, _, rfl⟩
      | drop => exact .inl ⟨rfl, _, rfl⟩
    · simp only [ProcessCall.accepted, process, hv, hr]
      exact .inl ⟨rfl, _, rfl⟩
  · simp only [ProcessCall.accepted, process, hv]
    exact .inl ⟨rfl, _, rfl⟩

/-- An event is written when it is accepted in time. -/
theorem stores_eq (p : RealtimeProcessor) (c : ProcessCall) :
    p.stores c = (c.accepted && decide (c.elapsedMs ≤ p.maxProcessingMs)) := rfl

/-- What a call can do: the event is given up, or its write throws after it was counted, or it
is written and reported. -/
theorem process_cases (p : RealtimeProcessor) (io : Sinks) (c : ProcessCall) :
    (p.stores c = false ∧ ∃ p' reason, p.process io c =
      (p', (io.push c.event).notifyDropped c.event .realtime reason, .returned)) ∨
    (p.stores c = true ∧ io.storeEvent c.event c.storeFails = none ∧ ∃ p', p.process io c =
      (p', io, .threw) ∧
      p'.metrics.totalEventsProcessed = p.metrics.totalEventsProcessed + 1) ∨
    (p.stores c = true ∧ ∃ io' p', io.storeEvent c.event c.storeFails = some io' ∧
      p.process io c = (p', io'.notifyProcessed c.event .realtime, .returned)) := by
  obtain ⟨haccepted, reason, hp⟩ | ⟨haccepted, alerts, hp⟩ := p.process_checks io c
  · exact .inl ⟨by rw [stores_eq, haccepted, Bool.false_and], _, reason, hp⟩
  · rw [stores_eq, haccepted, Bool.true_and, hp]
    obtain ⟨hlate, p', reason, hf⟩ | ⟨hle, hnone, hf⟩ | ⟨hle, io', hsome, hf⟩ :=
      finish_cases { p with metrics := p.metrics.processed, alerts := alerts } io c
    · exact .inl ⟨decide_eq_false (Int.not_le.mpr hlate), p', reason, hf⟩
    · exact .inr (.inl ⟨decide_eq_true hle, hnone, _, hf, rfl⟩)
    · exact .inr (.inr ⟨decide_eq_true hle, io', _, hsome, hf⟩)

end RealtimeProcessor

/-- `TransactionalProcessor`; a `max_retries_` below one makes no attempt. -/
structure TransactionalProcessor where
  paused : Bool
  maxRetries : Nat
  dedupTable : LockFreeDeduplicator defaultBuckets
  lastCleanupMs : UInt64
  latencyHist : LatencyHistogram
  metrics : Metrics

namespace TransactionalProcessor

/-- Give the event up: count it, push it to the dead letter queue, notify. -/
def drop (p : TransactionalProcessor) (io : Sinks) (c : ProcessCall) (reason : String) :
    TransactionalProcessor × Sinks × Outcome :=
  ({ p with metrics := p.metrics.dropped 1 },
    (io.push c.event).notifyDropped c.event .transactional reason, .returned)

/-- The cleanup of the deduplication table, at most every ten seconds;
`transactional.cpp:46–51`. -/
def maybeCleanup (p : TransactionalProcessor) (nowMs : UInt64) : TransactionalProcessor :=
  if p.lastCleanupMs = 0 ∨ nowMs - p.lastCleanupMs > 10000 then
    { p with lastCleanupMs := nowMs, dedupTable := (p.dedupTable.cleanup nowMs).1 }
  else p

/-- The retry loop: does one of the attempts succeed? `transactional.cpp:74–88`. -/
def handleWithRetry (p : TransactionalProcessor) (c : ProcessCall) : Bool :=
  (List.range' 1 p.maxRetries).any fun attempt ↦ (c.handler.handle c.event attempt).outcome.accepts

/-- What follows a successful attempt; `transactional.cpp:90–101`. The id is inserted and the
event counted before the write that may throw. -/
def commit (p : TransactionalProcessor) (io : Sinks) (c : ProcessCall) :
    TransactionalProcessor × Sinks × Outcome :=
  let p :=
    { p with
      dedupTable := (p.dedupTable.insert c.event.header.id c.nowMs).1
      metrics := p.metrics.processed }
  match io.storeEvent c.event c.storeFails with
  | none => (p, io, .threw)
  | some io =>
    let p :=
      if c.event.dequeueTimeNs > 0
      then { p with latencyHist := p.latencyHist.record (c.nowNs - c.event.dequeueTimeNs) } else p
    (p, io.notifyProcessed c.event .transactional, .returned)

/-- `process`. -/
def process (p : TransactionalProcessor) (io : Sinks) (c : ProcessCall) :
    TransactionalProcessor × Sinks × Outcome :=
  if p.paused then p.drop io c "processor_paused"
  else if p.dedupTable.isDuplicate c.event.header.id then (p, io, .returned)
  else
    let p := p.maybeCleanup c.nowMs
    let v := c.handler.validate c.event
    if !v.valid then p.drop io c v.error
    else
      let r := c.handler.checkRules c.event
      if !r.valid then p.drop io c r.error
      else if p.handleWithRetry c then p.commit io c
      else p.drop io c "max_retries_exceeded"

/-- `pauseProcessing`. -/
def pauseProcessing (p : TransactionalProcessor) : TransactionalProcessor :=
  { p with paused := true }

/-- `resumeProcessing`. -/
def resumeProcessing (p : TransactionalProcessor) : TransactionalProcessor :=
  { p with paused := false }

/-- Is an event discarded without a trace? -/
def discards (p : TransactionalProcessor) (c : ProcessCall) : Bool :=
  !p.paused && p.dedupTable.isDuplicate c.event.header.id

/-- Do the checks before the write let an event through? -/
def stores (p : TransactionalProcessor) (c : ProcessCall) : Bool :=
  !p.paused && !p.dedupTable.isDuplicate c.event.header.id &&
    (c.handler.validate c.event).valid && (c.handler.checkRules c.event).valid &&
    p.handleWithRetry c

/-- A cleanup leaves the settings alone and adds no id. -/
theorem maybeCleanup_frame (p : TransactionalProcessor) (nowMs : UInt64) :
    (p.maybeCleanup nowMs).maxRetries = p.maxRetries ∧
    (p.maybeCleanup nowMs).metrics = p.metrics ∧
    ∀ id, (p.maybeCleanup nowMs).dedupTable.isDuplicate id → p.dedupTable.isDuplicate id := by
  unfold maybeCleanup
  split
  · exact ⟨rfl, rfl, fun _ ↦ LockFreeDeduplicator.isDuplicate_of_cleanup⟩
  · exact ⟨rfl, rfl, fun _ ↦ id⟩

/-- What the end of `process` can do; the id is in the table either way. -/
private theorem commit_cases (p : TransactionalProcessor) (io : Sinks) (c : ProcessCall) :
    ∃ p', p'.metrics.totalEventsProcessed = p.metrics.totalEventsProcessed + 1 ∧
      (∀ id, p'.dedupTable.isDuplicate id =
        (c.event.header.id == id || p.dedupTable.isDuplicate id)) ∧
      (io.storeEvent c.event c.storeFails = none ∧ p.commit io c = (p', io, .threw) ∨
        ∃ io', io.storeEvent c.event c.storeFails = some io' ∧
          p.commit io c = (p', io'.notifyProcessed c.event .transactional, .returned)) := by
  unfold commit
  cases hstore : io.storeEvent c.event c.storeFails with
  | none =>
    exact ⟨_, rfl, fun id ↦ p.dedupTable.isDuplicate_insert _ _ _, .inl ⟨rfl, rfl⟩⟩
  | some io' =>
    by_cases hd : c.event.dequeueTimeNs > 0
    · simp only [if_pos hd]
      exact ⟨_, rfl, fun id ↦ p.dedupTable.isDuplicate_insert _ _ _, .inr ⟨io', rfl, rfl⟩⟩
    · simp only [if_neg hd]
      exact ⟨_, rfl, fun id ↦ p.dedupTable.isDuplicate_insert _ _ _, .inr ⟨io', rfl, rfl⟩⟩

/-- The checks before the write: the event is discarded, or given up, or committed. -/
theorem process_checks (p : TransactionalProcessor) (io : Sinks) (c : ProcessCall) :
    (p.discards c = true ∧ p.stores c = false ∧ p.process io c = (p, io, .returned)) ∨
    (p.discards c = false ∧ p.stores c = false ∧ ∃ reason, p.process io c = p.drop io c reason ∨
      p.process io c = (p.maybeCleanup c.nowMs).drop io c reason) ∨
    (p.discards c = false ∧ p.stores c = true ∧
      p.process io c = (p.maybeCleanup c.nowMs).commit io c) := by
  have hretry : (p.maybeCleanup c.nowMs).handleWithRetry c = p.handleWithRetry c := by
    rw [handleWithRetry, handleWithRetry, (p.maybeCleanup_frame c.nowMs).1]
  by_cases hp : p.paused
  · simp only [discards, stores, process, hp]
    exact .inr (.inl ⟨rfl, rfl, _, .inl rfl⟩)
  by_cases hd : p.dedupTable.isDuplicate c.event.header.id
  · simp only [discards, stores, process, hp, hd]
    exact .inl ⟨rfl, rfl, rfl⟩
  by_cases hv : (c.handler.validate c.event).valid
  · by_cases hr : (c.handler.checkRules c.event).valid
    · by_cases ho : p.handleWithRetry c
      · simp only [discards, stores, process, hp, hd, hv, hr, hretry, ho]
        exact .inr (.inr ⟨rfl, rfl, rfl⟩)
      · simp only [discards, stores, process, hp, hd, hv, hr, hretry, ho]
        exact .inr (.inl ⟨rfl, rfl, _, .inr rfl⟩)
    · simp only [discards, stores, process, hp, hd, hv, hr]
      exact .inr (.inl ⟨rfl, rfl, _, .inr rfl⟩)
  · simp only [discards, stores, process, hp, hd, hv]
    exact .inr (.inl ⟨rfl, rfl, _, .inr rfl⟩)

/-- What a call does to the deduplication table: nothing, or a cleanup that is due, or that and
the insertion of the id of an event that reaches `storeEvent`. -/
theorem process_table (p : TransactionalProcessor) (io : Sinks) (c : ProcessCall) :
    (p.stores c = false ∧
      ((p.process io c).1.dedupTable = p.dedupTable ∧
          (p.process io c).1.lastCleanupMs = p.lastCleanupMs ∨
        (p.process io c).1.dedupTable = (p.maybeCleanup c.nowMs).dedupTable ∧
          (p.process io c).1.lastCleanupMs = (p.maybeCleanup c.nowMs).lastCleanupMs)) ∨
    (p.stores c = true ∧ p.discards c = false ∧
      (p.process io c).1.dedupTable =
        ((p.maybeCleanup c.nowMs).dedupTable.insert c.event.header.id c.nowMs).1 ∧
      (p.process io c).1.lastCleanupMs = (p.maybeCleanup c.nowMs).lastCleanupMs) := by
  obtain ⟨-, hstores, hp⟩ | ⟨-, hstores, reason, hp | hp⟩ | ⟨hnew, hstores, hp⟩ :=
    p.process_checks io c
  · rw [hp]
    exact .inl ⟨hstores, .inl ⟨rfl, rfl⟩⟩
  · rw [hp]
    exact .inl ⟨hstores, .inl ⟨rfl, rfl⟩⟩
  · rw [hp]
    exact .inl ⟨hstores, .inr ⟨rfl, rfl⟩⟩
  · rw [hp, commit]
    right
    refine ⟨hstores, hnew, ?_⟩
    cases io.storeEvent c.event c.storeFails with
    | none => exact ⟨rfl, rfl⟩
    | some io' =>
      dsimp only
      split <;> exact ⟨rfl, rfl⟩

/-- What a call can do: the event is discarded as a duplicate, or given up, or its write throws
after it was counted and its id inserted, or it is written and reported. -/
theorem process_cases (p : TransactionalProcessor) (io : Sinks) (c : ProcessCall) :
    (p.discards c = true ∧ p.stores c = false ∧ p.process io c = (p, io, .returned)) ∨
    (p.stores c = false ∧ ∃ p' reason,
      (∀ id, p'.dedupTable.isDuplicate id → p.dedupTable.isDuplicate id) ∧
      p.process io c =
        (p', (io.push c.event).notifyDropped c.event .transactional reason, .returned)) ∨
    (p.stores c = true ∧ ∃ p',
      p'.metrics.totalEventsProcessed = p.metrics.totalEventsProcessed + 1 ∧
      p'.dedupTable.isDuplicate c.event.header.id = true ∧
      (∀ id, p'.dedupTable.isDuplicate id →
        c.event.header.id = id ∨ p.dedupTable.isDuplicate id) ∧
      (io.storeEvent c.event c.storeFails = none ∧ p.process io c = (p', io, .threw) ∨
        ∃ io', io.storeEvent c.event c.storeFails = some io' ∧
          p.process io c = (p', io'.notifyProcessed c.event .transactional, .returned))) := by
  obtain ⟨-, hmetrics, hids⟩ := p.maybeCleanup_frame c.nowMs
  obtain hdiscard | ⟨-, hstores, reason, hp | hp⟩ | ⟨-, hstores, hp⟩ := p.process_checks io c
  · exact .inl hdiscard
  · exact .inr (.inl ⟨hstores, (p.drop io c reason).1, reason, fun _ ↦ id, hp⟩)
  · exact .inr (.inl ⟨hstores, ((p.maybeCleanup c.nowMs).drop io c reason).1, reason, hids, hp⟩)
  · right; right
    obtain ⟨p', hcount, htable, hcommit⟩ := (p.maybeCleanup c.nowMs).commit_cases io c
    refine ⟨hstores, p', ?_, ?_, ?_, ?_⟩
    · rw [hcount, hmetrics]
    · rw [htable, beq_self_eq_true, Bool.true_or]
    · intro id hid
      rw [htable, Bool.or_eq_true, beq_iff_eq] at hid
      exact hid.imp_right (hids id)
    · rw [hp]
      exact hcommit

end TransactionalProcessor

end EventStreamCore.Processor
