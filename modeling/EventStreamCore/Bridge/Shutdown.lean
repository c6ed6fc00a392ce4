import EventStreamCore.Events.Pipeline

/-!
# Shutting the engine down

The threads of a running engine around its queues and the stop sequence of
`esccore_shutdown`, `src/bridge/esccore.cpp:163–192`, which `stopComponents`,
`src/main.cpp:126–137`, repeats: the UDP and TCP servers, then `ProcessManager::stop`, then
`Dispatcher::stop`. The loops are `ProcessManager::runLoop`,
`src/core/processor/manager.cpp:53–73`, and `Dispatcher::dispatchLoop`,
`src/core/events/dispatcher.cpp:84–130`. Of a call of `process` only the event it is given and
the drop of `BatchProcessor::process`, `src/core/processor/batch.cpp:49–59`, act on the queues; the
processor's `stop` after the loop does not and belongs to the step that leaves it.
-/

namespace EventStreamCore.Bridge
open EventStreamCore.Lib EventStreamCore.Queues EventStreamCore.Events

/-- The ingest servers of an engine. -/
inductive Source where
  | udp | tcp
deriving DecidableEq, Repr

/-- Where `runLoop` stands: before the load of `isRunning_`, before `pop`, before `process`,
in a drop of `BatchProcessor::process`, or past the loop. -/
inductive ConsumerPc where
  | check
  | pop
  | process (item : Item)
  | dropTake
  | dropFlush
  | exited
deriving DecidableEq, Repr

/-- The event popped and not yet given to `process`. -/
def ConsumerPc.hands : ConsumerPc → List Item
  | .process item => [item]
  | _ => []

/-- Where `dispatchLoop` stands: before the load of `running_`, in its body, or past the loop. -/
inductive LoopPc where
  | check | body | exited
deriving DecidableEq, Repr

/-- What the stop sequence does next. -/
inductive ShutdownPc where
  | notCalled
  | stopUdp
  | stopTcp
  | clearIsRunning
  | joinRealtime
  | joinTransactional
  | joinBatch
  | clearRunning
  | joinDispatcher
  | returned
deriving DecidableEq, Repr

/-- The queues, the ingest servers still running, the flags of `ProcessManager` and
`Dispatcher`, the threads, and what each processor's `process` was given. -/
structure Engine where
  pipe : Pipeline
  ingesting : Source → Bool
  isRunning : Bool
  running : Bool
  consumers : QueueId → ConsumerPc
  loop : LoopPc
  shutdown : ShutdownPc
  processed : QueueId → List Item

/-- What a step is: an ingest thread calls `tryPush`, the dispatcher moves, the processor thread
of a queue moves (with the value of `drop_events_`), or the stop sequence moves. -/
inductive EngineLabel where
  | ingest (source : Source) (evt : Option Event)
  | dispatcher (timeout : Bool)
  | consumer (queueId : QueueId) (dropEvents : Bool)
  | shutdown
deriving DecidableEq, Repr

namespace Engine

/-- Move the processor thread of a queue. -/
def setConsumer (s : Engine) (queueId : QueueId) (pc : ConsumerPc) : Engine :=
  { s with consumers := Function.update s.consumers queueId pc }

/-- One step of `dispatchLoop`; the body ends when the dispatcher is between two events. -/
def stepLoop (topicTable : Option TopicTable) (s : Engine) (timeout : Bool) : Option Engine :=
  match s.loop with
  | .check => some { s with loop := if s.running then .body else .exited }
  | .body =>
    (s.pipe.stepDispatcher topicTable timeout).map fun pipe ↦
      { s with pipe, loop := if pipe.dispatcher.isIdle then .check else .body }
  | .exited => none

/-- One step of `runLoop` on a queue; a `pop` that times out goes back to the check. -/
def stepConsumer (s : Engine) (queueId : QueueId) (dropEvents : Bool) : Option Engine :=
  match s.consumers queueId with
  | .check => some (s.setConsumer queueId (if s.isRunning then .pop else .exited))
  | .pop =>
    match s.pipe.bus.pop queueId with
    | none => some (s.setConsumer queueId .check)
    | some (item, _) =>
      (s.pipe.consume queueId).map fun pipe ↦
        { s with pipe, consumers := Function.update s.consumers queueId (.process item) }
  | .process item =>
    let drops := queueId = .batch ∧ dropEvents
    some { s with
      processed := Function.update s.processed queueId (s.processed queueId ++ [item])
      consumers := Function.update s.consumers queueId (if drops then .dropTake else .check) }
  | .dropTake =>
    (s.pipe.dropTake .batch).map fun pipe ↦
      { s with pipe, consumers := Function.update s.consumers queueId .dropFlush }
  | .dropFlush =>
    (s.pipe.dropFlush 0).map fun pipe ↦
      { s with pipe, consumers := Function.update s.consumers queueId .check }
  | .exited => none

/-- Wait for the processor thread of a queue to end. -/
def join (s : Engine) (queueId : QueueId) (next : ShutdownPc) : Option Engine :=
  if s.consumers queueId = .exited then some { s with shutdown := next } else none

/-- One step of the stop sequence. Stopping a server joins its threads, which is one step here,
however long its clients keep it waiting. -/
def stepShutdown (s : Engine) : Option Engine :=
  match s.shutdown with
  | .notCalled => some { s with shutdown := .stopUdp }
  | .stopUdp =>
    some { s with ingesting := Function.update s.ingesting .udp false, shutdown := .stopTcp }
  | .stopTcp =>
    some { s with
      ingesting := Function.update s.ingesting .tcp false, shutdown := .clearIsRunning }
  | .clearIsRunning => some { s with isRunning := false, shutdown := .joinRealtime }
  | .joinRealtime => s.join .realtime .joinTransactional
  | .joinTransactional => s.join .transactional .joinBatch
  | .joinBatch => s.join .batch .clearRunning
  | .clearRunning => some { s with running := false, shutdown := .joinDispatcher }
  | .joinDispatcher =>
    if s.loop = .exited then some { s with shutdown := .returned } else none
  | .returned => none

/-- One step of the engine. -/
def step (topicTable : Option TopicTable) (s : Engine) : EngineLabel → Option Engine
  | .ingest source evt =>
    if s.ingesting source then some { s with pipe := s.pipe.tryPush evt } else none
  | .dispatcher timeout => s.stepLoop topicTable timeout
  | .consumer queueId dropEvents => s.stepConsumer queueId dropEvents
  | .shutdown => s.stepShutdown

/-- The engine `esccore_init` leaves running. -/
def initial (buffer : Fin realtimeCapacity.val → Item) : Engine :=
  ⟨.initial buffer, fun _ ↦ true, true, true, fun _ ↦ .check, .check, .notCalled, fun _ ↦ []⟩

/-- Every accepted event has been given to `process` or pushed to the dead letter queue, and
none is left in a queue. -/
def Drained (s : Engine) : Prop :=
  (∀ k < s.pipe.nextTicket, (∃ q, k ∈ (s.processed q).map Item.ticket) ∨
    k ∈ s.pipe.dlqPushes.map Item.ticket) ∧
  s.pipe.inbound.filterMap id = [] ∧ ∀ q, s.pipe.bus.held q = []

/-- What `dispatchLoop` may do: be left only when the inbound queue holds no event, and push
only to a queue whose processor thread is still in its loop. -/
def LoopLeavesNothing (s : Engine) : LoopPc → Prop
  | .check => s.running = false → s.pipe.inbound.filterMap id = []
  | .body => ∀ q ∈ s.pipe.dispatcher.target, s.consumers q ≠ .exited
  | .exited => True

/-- No thread stops with work left: `dispatchLoop` does not, and a processor thread leaves its
loop only when its queue is empty. -/
def LeavesNothing (s : Engine) : EngineLabel → Prop
  | .dispatcher _ => s.LoopLeavesNothing s.loop
  | .consumer queueId _ =>
    s.consumers queueId = .check → s.isRunning = false → s.pipe.bus.held queueId = []
  | .ingest _ _ => True
  | .shutdown => True

instance (s : Engine) (pc : LoopPc) : Decidable (s.LoopLeavesNothing pc) :=
  match pc with
  | .check => inferInstanceAs (Decidable (s.running = false → s.pipe.inbound.filterMap id = []))
  | .body => inferInstanceAs (Decidable (∀ q ∈ s.pipe.dispatcher.target, s.consumers q ≠ .exited))
  | .exited => .isTrue trivial

instance (s : Engine) (l : EngineLabel) : Decidable (s.LeavesNothing l) :=
  match l with
  | .dispatcher _ => inferInstanceAs (Decidable (s.LoopLeavesNothing s.loop))
  | .consumer queueId _ =>
    inferInstanceAs (Decidable
      (s.consumers queueId = .check → s.isRunning = false → s.pipe.bus.held queueId = []))
  | .ingest _ _ => .isTrue trivial
  | .shutdown => .isTrue trivial

end Engine

/-- All runs of the engine and its stop sequence. -/
def engine (topicTable : Option TopicTable) (buffer : Fin realtimeCapacity.val → Item) :
    Machine Engine EngineLabel where
  start := Engine.initial buffer
  step := Engine.step topicTable

namespace Engine

variable {s t : Engine} {topicTable : Option TopicTable}

/-- What a step of `dispatchLoop` is. -/
theorem stepLoop_cases {timeout : Bool} (h : s.stepLoop topicTable timeout = some t) :
    s.loop = .check ∧ t = { s with loop := if s.running then .body else .exited } ∨
    s.loop = .body ∧ ∃ pipe, s.pipe.stepDispatcher topicTable timeout = some pipe ∧
      t = { s with pipe, loop := if pipe.dispatcher.isIdle then .check else .body } := by
  unfold stepLoop at h
  split at h
  · next hl =>
    cases h
    exact .inl ⟨hl, rfl⟩
  · next hl =>
    obtain ⟨pipe, hp, rfl⟩ := Option.map_eq_some_iff.mp h
    exact .inr ⟨hl, pipe, hp, rfl⟩
  · cases h

/-- A joined thread has left its loop. -/
theorem join_eq_some {q : QueueId} {next : ShutdownPc} (h : s.join q next = some t) :
    s.consumers q = .exited ∧ t = { s with shutdown := next } := by
  unfold join at h
  split at h <;> cases h
  next he => exact ⟨he, rfl⟩

/-- The stop sequence leaves the queues and the other threads alone and restarts nothing. -/
theorem stepShutdown_frame (h : s.stepShutdown = some t) :
    t.pipe = s.pipe ∧ t.consumers = s.consumers ∧ t.loop = s.loop ∧
      t.processed = s.processed ∧ (s.running = false → t.running = false) := by
  have hjoin : ∀ q next, s.join q next = some t → t.pipe = s.pipe ∧ t.consumers = s.consumers ∧
      t.loop = s.loop ∧ t.processed = s.processed ∧ (s.running = false → t.running = false) := by
    intro q next hj
    obtain ⟨-, rfl⟩ := join_eq_some hj
    exact ⟨rfl, rfl, rfl, rfl, id⟩
  unfold stepShutdown at h
  split at h
  · cases h
    exact ⟨rfl, rfl, rfl, rfl, id⟩
  · cases h
    exact ⟨rfl, rfl, rfl, rfl, id⟩
  · cases h
    exact ⟨rfl, rfl, rfl, rfl, id⟩
  · cases h
    exact ⟨rfl, rfl, rfl, rfl, id⟩
  · exact hjoin _ _ h
  · exact hjoin _ _ h
  · exact hjoin _ _ h
  · cases h
    exact ⟨rfl, rfl, rfl, rfl, fun _ ↦ rfl⟩
  · split at h <;> cases h
    exact ⟨rfl, rfl, rfl, rfl, id⟩
  · cases h

/-- What a step of `runLoop` does to the queues. -/
private theorem stepConsumer_pipe {q : QueueId} {dropEvents : Bool}
    (h : s.stepConsumer q dropEvents = some t) :
    t.pipe = s.pipe ∨ s.pipe.consume q = some t.pipe ∨ s.pipe.dropTake .batch = some t.pipe ∨
      s.pipe.dropFlush 0 = some t.pipe := by
  unfold stepConsumer at h
  split at h
  · cases h; exact .inl rfl
  · split at h
    · cases h; exact .inl rfl
    · obtain ⟨pipe, hp, rfl⟩ := Option.map_eq_some_iff.mp h
      exact .inr (.inl hp)
  · cases h; exact .inl rfl
  · obtain ⟨pipe, hp, rfl⟩ := Option.map_eq_some_iff.mp h
    exact .inr (.inr (.inl hp))
  · obtain ⟨pipe, hp, rfl⟩ := Option.map_eq_some_iff.mp h
    exact .inr (.inr (.inr hp))
  · cases h

end Engine

/-- The queues of a running engine go through runs of the pipeline. -/
def engineToPipeline (topicTable : Option TopicTable)
    (buffer : Fin realtimeCapacity.val → Item) :
    Machine.Simulation (engine topicTable buffer) (pipeline topicTable buffer) where
  abs := Engine.pipe
  start := rfl
  step s l t h := by
    cases l with
    | ingest source evt =>
      change (if _ then _ else _) = _ at h
      split at h <;> cases h
      exact .inr ⟨.tryPush evt, rfl⟩
    | dispatcher timeout =>
      obtain ⟨-, rfl⟩ | ⟨-, pipe, hp, rfl⟩ := Engine.stepLoop_cases h
      · exact .inl rfl
      · exact .inr ⟨.dispatcher timeout, hp⟩
    | consumer queueId dropEvents =>
      obtain hp | hp | hp | hp := Engine.stepConsumer_pipe h
      · exact .inl hp
      · exact .inr ⟨.consume queueId, hp⟩
      · exact .inr ⟨.dropTake .batch, hp⟩
      · exact .inr ⟨.dropFlush 0, hp⟩
    | shutdown => exact .inl (Engine.stepShutdown_frame h).1

end EventStreamCore.Bridge
