import EventStreamCore.Lib.Machine
import EventStreamCore.Processor.Processors

/-!
# The batch processor

`BatchProcessor`, `src/core/processor/batch.cpp:23–127`. A call yields the calls it makes on its
handlers, the storage, the dead letter queue, the event bus and the observers, in order. Times
are nanoseconds of the steady clock, and a last flush time of zero stands for none. What the map
of the buckets decides by itself is the order in which `stop` visits them. Log lines, thread
binding, metric timestamps and `StorageEngine::flush` are left out, and so is the private
`flush(topic)`, which nothing calls.
-/

namespace EventStreamCore.Processor
open EventStreamCore.Lib EventStreamCore.Events EventStreamCore.Storage

/-- An event given to `process`, with the number of that call and its clock reading. -/
structure Arrival where
  ticket : Nat
  arrivedAt : Nat
  event : Event
deriving DecidableEq, Repr

/-- A call made by the processor; `push` is the dead letter queue's. -/
inductive BatchCall where
  | handle (a : Arrival)
  | push (a : Arrival)
  | storeEvent (a : Arrival)
  | notifyProcessed (a : Arrival)
  | notifyDropped (a : Arrival) (reason : String)
  | dropBatchFromQueue
deriving DecidableEq, Repr

/-- What a call does to storage, dead letter queue and observers. -/
def BatchCall.apply (io : Sinks) : BatchCall → Sinks
  | .handle _ => io
  | .push a => io.push a.event
  | .storeEvent a => (io.storeEvent a.event false).getD io
  | .notifyProcessed a => io.notifyProcessed a.event .batch
  | .notifyDropped a reason => io.notifyDropped a.event .batch reason
  | .dropBatchFromQueue => io

/-- The events passed to `handler->handle`. -/
def handledEvents (calls : List BatchCall) : List Arrival :=
  calls.filterMap fun
    | .handle a => some a
    | _ => none

/-- What a call of the processor meets: the handlers registered, the events on which `handle`
throws and those on which the write of `storeEvent` fails. -/
structure BatchEnv where
  handlers : EventHandlerRegistry
  handleThrows : Arrival → Bool
  storeFails : Arrival → Bool

/-- `TopicBucket`. -/
structure TopicBucket where
  events : List Arrival
  lastFlushTime : Nat

/-- `BatchProcessor`: `window` is in seconds, `eventBus` says whether there is a bus, and
`topics` are the keys of `buckets_`; any other topic has the bucket `try_emplace` makes. -/
structure BatchProcessor where
  dropEvents : Bool
  window : Nat
  eventBus : Bool
  topics : List Bytes
  buckets : Bytes → TopicBucket
  metrics : Metrics

namespace BatchProcessor

/-- A new processor. -/
def initial (window : Nat) (eventBus : Bool) : BatchProcessor :=
  ⟨false, window, eventBus, [], fun _ ↦ ⟨[], 0⟩, .initial⟩

/-- `window_` in ticks of the clock. -/
def windowNs (p : BatchProcessor) : Nat := p.window * 1000000000

/-- Write a bucket of the map. -/
def putBucket (p : BatchProcessor) (topic : Bytes) (bucket : TopicBucket) : BatchProcessor :=
  { p with
    topics := if topic ∈ p.topics then p.topics else p.topics ++ [topic]
    buckets := Function.update p.buckets topic bucket }

/-- One round of the loop of `flushBucketLocked`, the `i`-th; `batch.cpp:112–123`. -/
def flushEvent (io : Sinks) (env : BatchEnv) (handler : EventHandler) (i : Nat) (a : Arrival) :
    List BatchCall × Outcome :=
  if env.handleThrows a then ([.handle a], .threw)
  else
    let result := handler.handle a.event i
    match result.outcome with
    | .fail | .drop =>
      (.handle a :: (if io.dlq.isSome then [.push a] else []) ++
        [.notifyDropped a result.message], .returned)
    | .success | .alert =>
      if io.storage.isSome ∧ env.storeFails a then ([.handle a], .threw)
      else
        (.handle a :: (if io.storage.isSome then [.storeEvent a] else []) ++
          [.notifyProcessed a], .returned)

/-- The loop of `flushBucketLocked` from the `i`-th round on. -/
def flushEvents (io : Sinks) (env : BatchEnv) (handler : EventHandler) :
    Nat → List Arrival → List BatchCall × Outcome
  | _, [] => ([], .returned)
  | i, a :: rest =>
    match flushEvent io env handler i a with
    | (calls, .threw) => (calls, .threw)
    | (calls, .returned) =>
      let (more, outcome) := flushEvents io env handler (i + 1) rest
      (calls ++ more, outcome)

/-- `flushBucketLocked`: the bucket is emptied at the end, if the loop gets there. -/
def flushBucketLocked (io : Sinks) (env : BatchEnv) (topic : Bytes) (bucket : TopicBucket) :
    TopicBucket × List BatchCall × Outcome :=
  if bucket.events.isEmpty then (bucket, [], .returned)
  else
    let handler := EventHandlerRegistry.getOrDefault env.handlers topic
    match flushEvents io env handler 1 bucket.events with
    | (calls, .threw) => (bucket, calls, .threw)
    | (calls, .returned) => ({ bucket with events := [] }, calls, .returned)

/-- Give an event up: count it, push it to the dead letter queue, notify. -/
def drop (p : BatchProcessor) (io : Sinks) (a : Arrival) (reason : String) :
    BatchProcessor × List BatchCall × Outcome :=
  ({ p with metrics := p.metrics.dropped 1 },
    (if io.dlq.isSome then [.push a] else []) ++ [.notifyDropped a reason], .returned)

/-- The last part of `process`; `batch.cpp:79–101`. -/
def bucketEvent (p : BatchProcessor) (io : Sinks) (env : BatchEnv) (a : Arrival) :
    BatchProcessor × List BatchCall × Outcome :=
  let topic := a.event.topic
  let bucket := { p.buckets topic with events := (p.buckets topic).events ++ [a] }
  let p := { p with metrics := p.metrics.processed }
  if bucket.lastFlushTime = 0 then
    (p.putBucket topic { bucket with lastFlushTime := a.arrivedAt }, [], .returned)
  else if a.arrivedAt ≥ bucket.lastFlushTime + p.windowNs then
    match flushBucketLocked io env topic bucket with
    | (bucket, calls, .threw) => (p.putBucket topic bucket, calls, .threw)
    | (bucket, calls, .returned) =>
      (p.putBucket topic { bucket with lastFlushTime := a.arrivedAt }, calls, .returned)
  else (p.putBucket topic bucket, [], .returned)

/-- `process`. -/
def process (p : BatchProcessor) (io : Sinks) (env : BatchEnv) (a : Arrival) :
    BatchProcessor × List BatchCall × Outcome :=
  if p.dropEvents then
    ({ p with metrics := p.metrics.dropped 1 },
      (if io.dlq.isSome then [.push a] else []) ++
        (if p.eventBus then [.dropBatchFromQueue] else []) ++
        [.notifyDropped a "backpressure_drop"], .returned)
  else
    let handler := EventHandlerRegistry.getOrDefault env.handlers a.event.topic
    let v := handler.validate a.event
    if !v.valid then p.drop io a v.error
    else
      let r := handler.checkRules a.event
      if !r.valid then p.drop io a r.error
      else p.bucketEvent io env a

/-- Is an event taken into a bucket? -/
def accepts (p : BatchProcessor) (env : BatchEnv) (event : Event) : Bool :=
  let handler := EventHandlerRegistry.getOrDefault env.handlers event.topic
  !p.dropEvents && (handler.validate event).valid && (handler.checkRules event).valid

/-- The loop of `stop` over the topics from here on. -/
def flushAll (p : BatchProcessor) (io : Sinks) (env : BatchEnv) :
    List Bytes → BatchProcessor × List BatchCall × Outcome
  | [] => (p, [], .returned)
  | topic :: rest =>
    match flushBucketLocked io env topic (p.buckets topic) with
    | (bucket, calls, .threw) => (p.putBucket topic bucket, calls, .threw)
    | (bucket, calls, .returned) =>
      let (p, more, outcome) := (p.putBucket topic bucket).flushAll io env rest
      (p, calls ++ more, outcome)

/-- `dropBatchEvents`. -/
def dropBatchEvents (p : BatchProcessor) : BatchProcessor := { p with dropEvents := true }

/-- `resumeBatchEvents`. -/
def resumeBatchEvents (p : BatchProcessor) : BatchProcessor := { p with dropEvents := false }

end BatchProcessor

/-- A processor, what it writes to, the last clock reading, and the history: how many events
`process` was given, those it accepted, and the calls made. -/
structure BatchRun where
  processor : BatchProcessor
  io : Sinks
  clock : Nat
  arrivals : Nat
  accepted : List Arrival
  calls : List BatchCall

/-- What is called next; `stop` visits the buckets in the order given. -/
inductive BatchLabel where
  | process (event : Event) (now : Nat) (env : BatchEnv)
  | stop (order : List Bytes) (env : BatchEnv)
  | dropBatchEvents
  | resumeBatchEvents

namespace BatchRun

/-- A new processor. -/
def initial (window : Nat) (eventBus : Bool) (io : Sinks) : BatchRun :=
  ⟨.initial window eventBus, io, 0, 0, [], []⟩

/-- A call of `process`. -/
def process (s : BatchRun) (event : Event) (now : Nat) (env : BatchEnv) : BatchRun :=
  let a : Arrival := ⟨s.arrivals, now, event⟩
  let (processor, calls, _) := s.processor.process s.io env a
  { processor
    io := calls.foldl BatchCall.apply s.io
    clock := now
    arrivals := s.arrivals + 1
    accepted := if s.processor.accepts env event then s.accepted ++ [a] else s.accepted
    calls := s.calls ++ calls }

/-- A call of `stop`. -/
def stop (s : BatchRun) (order : List Bytes) (env : BatchEnv) : BatchRun :=
  let (processor, calls, _) := s.processor.flushAll s.io env order
  { s with processor, io := calls.foldl BatchCall.apply s.io, calls := s.calls ++ calls }

/-- One call; an exception is caught by the caller, which goes on. -/
def step (s : BatchRun) : BatchLabel → Option BatchRun
  | .process event now env => some (s.process event now env)
  | .stop order env =>
    if order.isPerm s.processor.topics then some (s.stop order env) else none
  | .dropBatchEvents => some { s with processor := s.processor.dropBatchEvents }
  | .resumeBatchEvents => some { s with processor := s.processor.resumeBatchEvents }

end BatchRun

/-- All sequences of calls. -/
def batching (window : Nat) (eventBus : Bool) (io : Sinks) : Machine BatchRun BatchLabel where
  start := BatchRun.initial window eventBus io
  step := BatchRun.step

theorem handledEvents_append (calls more : List BatchCall) :
    handledEvents (calls ++ more) = handledEvents calls ++ handledEvents more :=
  List.filterMap_append

/-- Nothing throws. -/
def BatchEnv.Quiet (env : BatchEnv) : Prop :=
  ∀ a, env.handleThrows a = false ∧ env.storeFails a = false

namespace BatchProcessor

variable {env : BatchEnv}

/-- What one round of the flush loop does: it throws having passed the event to `handle` and
done nothing else, or it deals with the event and reports it. -/
theorem flushEvent_cases (io : Sinks) (env : BatchEnv) (handler : EventHandler) (i : Nat)
    (a : Arrival) :
    (flushEvent io env handler i a = ([.handle a], .threw) ∧ ¬env.Quiet) ∨
    (∃ reason, flushEvent io env handler i a =
      (.handle a :: (if io.dlq.isSome then [.push a] else []) ++ [.notifyDropped a reason],
        .returned)) ∨
    flushEvent io env handler i a =
      (.handle a :: (if io.storage.isSome then [.storeEvent a] else []) ++ [.notifyProcessed a],
        .returned) := by
  unfold flushEvent
  split
  · next hthrows =>
    refine .inl ⟨rfl, fun hq ↦ ?_⟩
    rw [(hq a).1] at hthrows
    cases hthrows
  · dsimp only
    split
    · exact .inr (.inl ⟨_, rfl⟩)
    · exact .inr (.inl ⟨_, rfl⟩)
    all_goals
      split
      · next hfails =>
        refine .inl ⟨rfl, fun hq ↦ ?_⟩
        rw [(hq a).2] at hfails
        cases hfails.2
      · exact .inr (.inr rfl)

/-- A round passes its event to `handle`. -/
theorem flushEvent_handled (io : Sinks) (env : BatchEnv) (handler : EventHandler) (i : Nat)
    (a : Arrival) :
    handledEvents (flushEvent io env handler i a).1 = [a] := by
  obtain ⟨h, -⟩ | ⟨reason, h⟩ | h := flushEvent_cases io env handler i a
  · rw [h]
    rfl
  · rw [h]
    split <;> rfl
  · rw [h]
    split <;> rfl

private theorem flushEvents_quiet (io : Sinks) (hq : env.Quiet) (handler : EventHandler) (i : Nat)
    (events : List Arrival) :
    (flushEvents io env handler i events).2 = .returned ∧
    handledEvents (flushEvents io env handler i events).1 = events := by
  induction events generalizing i with
  | nil => exact ⟨rfl, rfl⟩
  | cons a rest ih =>
    have hhandled := flushEvent_handled io env handler i a
    have hreturned : (flushEvent io env handler i a).2 = .returned := by
      obtain ⟨-, hloud⟩ | ⟨reason, h⟩ | h := flushEvent_cases io env handler i a
      · exact absurd hq hloud
      · rw [h]
      · rw [h]
    unfold flushEvents
    cases hround : flushEvent io env handler i a with
    | mk calls outcome =>
      rw [hround] at hhandled hreturned
      dsimp only at hhandled hreturned
      subst hreturned
      refine ⟨(ih (i + 1)).1, ?_⟩
      rw [handledEvents_append, hhandled, (ih (i + 1)).2]
      rfl

/-- Without an exception a flush empties the bucket and passes all its events to `handle`, in
order. -/
theorem flushBucketLocked_quiet (io : Sinks) (hq : env.Quiet) (topic : Bytes)
    (bucket : TopicBucket) :
    ∃ calls, flushBucketLocked io env topic bucket =
      (⟨[], bucket.lastFlushTime⟩, calls, .returned) ∧ handledEvents calls = bucket.events := by
  unfold flushBucketLocked
  split
  · next hempty =>
    rw [List.isEmpty_iff] at hempty
    refine ⟨[], ?_, hempty.symm⟩
    rw [← hempty]
  · obtain ⟨hreturned, hhandled⟩ := flushEvents_quiet io hq
      (EventHandlerRegistry.getOrDefault env.handlers topic) 1 bucket.events
    dsimp only
    cases hloop : flushEvents io env (EventHandlerRegistry.getOrDefault env.handlers topic) 1
        bucket.events with
    | mk calls outcome =>
      rw [hloop] at hreturned hhandled
      dsimp only at hreturned hhandled
      subst hreturned
      exact ⟨calls, rfl, hhandled⟩

/-- What `process` does: an event that is not accepted is given up, and nothing is flushed; any
other goes into its bucket. -/
theorem process_cases (p : BatchProcessor) (io : Sinks) (env : BatchEnv) (a : Arrival) :
    (p.accepts env a.event = false ∧ ∃ bus reason, (bus = [] ∨ bus = [.dropBatchFromQueue]) ∧
      p.process io env a = ({ p with metrics := p.metrics.dropped 1 },
        (if io.dlq.isSome then [.push a] else []) ++ bus ++ [.notifyDropped a reason],
          .returned)) ∨
    (p.accepts env a.event = true ∧ p.process io env a = p.bucketEvent io env a) := by
  unfold accepts process
  generalize EventHandlerRegistry.getOrDefault env.handlers a.event.topic = handler
  dsimp only
  by_cases hd : p.dropEvents
  · left
    rw [if_pos hd]
    refine ⟨by simp [hd], _, _, ?_, rfl⟩
    split
    · exact .inr rfl
    · exact .inl rfl
  rw [if_neg hd]
  by_cases hv : (handler.validate a.event).valid
  · by_cases hr : (handler.checkRules a.event).valid
    · right
      refine ⟨by simp [hd, hv, hr], ?_⟩
      simp only [hv, hr, Bool.not_true, Bool.false_eq_true, if_false]
    · left
      refine ⟨by simp [hr], [], (handler.checkRules a.event).error, .inl rfl, ?_⟩
      simp only [hv, hr, Bool.not_true, Bool.not_false, Bool.false_eq_true, if_true, if_false,
        List.append_nil]
      rfl
  · left
    refine ⟨by simp [hv], [], (handler.validate a.event).error, .inl rfl, ?_⟩
    simp only [hv, Bool.not_false, if_true, List.append_nil]
    rfl

end BatchProcessor

end EventStreamCore.Processor
