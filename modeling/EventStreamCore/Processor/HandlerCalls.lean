import EventStreamCore.Lib.History
import EventStreamCore.Processor.BatchFailure
import EventStreamCore.Processor.BodyHandlers

/-!
# Which handler sees which event

The calls that the three processors make on handlers, `src/core/processor/realtime.cpp:53–74`,
`src/core/processor/transactional.cpp:53–76` and `src/core/processor/batch.cpp:61–127`, while
handlers are registered and cleared between their steps. `RealtimeProcessor` and
`TransactionalProcessor` look the handler of an event up once. `BatchProcessor` looks it up for
the checks, and once more by topic when it flushes the bucket. A call of its `process` is taken
in two steps, the checks and the bucketing, and a call of `stop` bucket by bucket. The private
functions `handle` of the processors, which nothing calls, are left out.
-/

namespace EventStreamCore.Processor
open EventStreamCore.Lib EventStreamCore.Events EventStreamCore.Storage

/-- A virtual function of a handler; `handle` with the number of the attempt. -/
inductive HandlerMethod where
  | validate
  | checkRules
  | handle (attempt : Nat)
deriving DecidableEq, Repr

/-- A call on a handler, for the event that `process` was given in its call of this number. -/
structure HandlerCall where
  handler : HandlerObject
  method : HandlerMethod
  ticket : Nat
  event : Event

namespace HandlerCall

/-- The call stays inside the body of its event. -/
def InBounds (c : HandlerCall) : Prop :=
  match c.method with
  | .validate => True
  | .checkRules => (c.handler.impl.checkRules c.event).isSome
  | .handle attempt => (c.handler.impl.handle c.event attempt).isSome

/-- Before a call of `checkRules` or `handle`, the same handler has validated the event. -/
def Validated (past : List HandlerCall) (c : HandlerCall) : Prop :=
  c.method ≠ .validate → ⟨c.handler, .validate, c.ticket, c.event⟩ ∈ past ∧
    (c.handler.impl.validate c.event).valid

/-- A validation stays made. -/
theorem validated_mono (past more : List HandlerCall) (c : HandlerCall) (h : Validated past c) :
    Validated (past ++ more) c :=
  fun hne ↦ ⟨List.mem_append_left more (h hne).1, (h hne).2⟩

/-- A handler that is safe on the events it validates stays inside their bodies. -/
theorem Validated.inBounds {past : List HandlerCall} {c : HandlerCall} (h : Validated past c)
    (hguarded : c.handler.impl.Guarded) : c.InBounds := by
  obtain ⟨handler, method, ticket, event⟩ := c
  cases method with
  | validate => trivial
  | checkRules => exact (hguarded event (h nofun).2).1
  | handle attempt => exact (hguarded event (h nofun).2).2 attempt

end HandlerCall

/-! ### The calls of each processor -/

/-- Validation and rules, in that order. -/
def checkCalls (h : HandlerObject) (k : Nat) (event : Event) : List HandlerCall :=
  ⟨h, .validate, k, event⟩ ::
    if (h.handler.validate event).valid then [⟨h, .checkRules, k, event⟩] else []

/-- Does the event pass validation and rules? -/
def HandlerObject.passes (h : HandlerObject) (event : Event) : Bool :=
  (h.handler.validate event).valid && (h.handler.checkRules event).valid

/-- The calls of `RealtimeProcessor::process` on the handler it found. -/
def RealtimeProcessor.handlerCalls (h : HandlerObject) (k : Nat) (event : Event) :
    List HandlerCall :=
  checkCalls h k event ++ if h.passes event then [⟨h, .handle 1, k, event⟩] else []

/-- The calls of the retry loop with these attempts left. -/
def retryCalls (h : HandlerObject) (k : Nat) (event : Event) : List Nat → List HandlerCall
  | [] => []
  | attempt :: rest =>
    ⟨h, .handle attempt, k, event⟩ ::
      if (h.handler.handle event attempt).outcome.accepts then []
      else retryCalls h k event rest

/-- The calls of `TransactionalProcessor::process` on the handler it found. -/
def TransactionalProcessor.handlerCalls (p : TransactionalProcessor) (h : HandlerObject) (k : Nat)
    (event : Event) : List HandlerCall :=
  if p.paused then []
  else if p.dedupTable.isDuplicate event.header.id then []
  else checkCalls h k event ++
    if h.passes event then retryCalls h k event (List.range' 1 p.maxRetries) else []

/-- The calls of `BatchProcessor::process` on the handler it found before it takes its mutex. -/
def BatchProcessor.handlerCalls (p : BatchProcessor) (h : HandlerObject) (k : Nat)
    (event : Event) : List HandlerCall :=
  if p.dropEvents then [] else checkCalls h k event

/-- The calls of `flushBucketLocked` on the handler it found, from the `i`-th round on. -/
def flushCalls (h : HandlerObject) : Nat → List Arrival → List HandlerCall
  | _, [] => []
  | i, a :: rest => ⟨h, .handle i, a.ticket, a.event⟩ :: flushCalls h (i + 1) rest

/-- The handler would answer the call as the one it was made on does. -/
def HandlerCall.AnsweredAlike (handler : EventHandler) (c : HandlerCall) : Prop :=
  match c.method with
  | .validate => handler.validate c.event = c.handler.handler.validate c.event
  | .checkRules => handler.checkRules c.event = c.handler.handler.checkRules c.event
  | .handle attempt => handler.handle c.event attempt = c.handler.handler.handle c.event attempt

private theorem handler_toRegistry (c : ProcessCall) (handlers : HandlerTable) :
    ({ c with handlers := handlers.toRegistry } : ProcessCall).handler =
      (handlers.getOrDefault c.event.topic).handler :=
  handlers.getOrDefault_toRegistry c.event.topic

private theorem answers_of_checkCalls {obj : HandlerObject} {k : Nat} {event : Event}
    {handler : EventHandler} {more : List HandlerCall}
    (h : ∀ call ∈ checkCalls obj k event ++ more, call.AnsweredAlike handler) :
    handler.validate event = obj.handler.validate event ∧
      ((obj.handler.validate event).valid →
        handler.checkRules event = obj.handler.checkRules event) := by
  refine ⟨h _ (List.mem_append_left _ List.mem_cons_self), fun hvalid ↦ ?_⟩
  have hmem : (⟨obj, .checkRules, k, event⟩ : HandlerCall) ∈ checkCalls obj k event := by
    rw [checkCalls, if_pos hvalid]
    exact List.mem_cons_of_mem _ List.mem_cons_self
  exact h _ (List.mem_append_left _ hmem)

private theorem any_accepts_of_answers {obj : HandlerObject} {k : Nat} {event : Event}
    {handler : EventHandler} {attempts : List Nat}
    (h : ∀ call ∈ retryCalls obj k event attempts, call.AnsweredAlike handler) :
    (attempts.any fun attempt ↦ (handler.handle event attempt).outcome.accepts) =
      attempts.any fun attempt ↦ (obj.handler.handle event attempt).outcome.accepts := by
  induction attempts with
  | nil => rfl
  | cons attempt rest ih =>
    have hfirst : handler.handle event attempt = obj.handler.handle event attempt :=
      h _ List.mem_cons_self
    rw [List.any_cons, List.any_cons, hfirst]
    cases haccepts : (obj.handler.handle event attempt).outcome.accepts with
    | true => rfl
    | false =>
      rw [Bool.false_or, Bool.false_or]
      exact ih fun call hcall ↦ h call (List.mem_cons_of_mem _ (by simp [haccepts, hcall]))

section Answers

variable {handlers handlers' : HandlerTable} {k : Nat} (io : Sinks) (c : ProcessCall)

/-- A call of `RealtimeProcessor::process` depends on its handler by these answers only. -/
theorem RealtimeProcessor.process_eq_of_answers (p : RealtimeProcessor)
    (h : ∀ call ∈ handlerCalls (handlers.getOrDefault c.event.topic) k c.event,
      call.AnsweredAlike (handlers'.getOrDefault c.event.topic).handler) :
    p.process io { c with handlers := handlers'.toRegistry } =
      p.process io { c with handlers := handlers.toRegistry } := by
  generalize hobj : handlers.getOrDefault c.event.topic = obj at h
  obtain ⟨hvalidate, hrules⟩ := answers_of_checkCalls h
  simp only [process, handler_toRegistry, hobj, hvalidate]
  by_cases hv : (obj.handler.validate c.event).valid
  · simp only [hrules hv]
    by_cases hr : (obj.handler.checkRules c.event).valid
    · have hhandle := h ⟨obj, .handle 1, k, c.event⟩
        (List.mem_append_right _ (by simp [HandlerObject.passes, hv, hr]))
      simp only [HandlerCall.AnsweredAlike] at hhandle
      simp only [hhandle]
      rfl
    · simp only [hr]
      rfl
  · simp only [hv]
    rfl

/-- A call of `TransactionalProcessor::process` depends on its handler by these answers only. -/
theorem TransactionalProcessor.process_eq_of_answers (p : TransactionalProcessor)
    (h : ∀ call ∈ p.handlerCalls (handlers.getOrDefault c.event.topic) k c.event,
      call.AnsweredAlike (handlers'.getOrDefault c.event.topic).handler) :
    p.process io { c with handlers := handlers'.toRegistry } =
      p.process io { c with handlers := handlers.toRegistry } := by
  generalize hobj : handlers.getOrDefault c.event.topic = obj at h
  unfold process
  split
  · rfl
  split
  · rfl
  next hpaused hnew =>
  rw [handlerCalls, if_neg hpaused, if_neg hnew] at h
  obtain ⟨hvalidate, hrules⟩ := answers_of_checkCalls h
  simp only [handler_toRegistry, hobj, hvalidate]
  by_cases hv : (obj.handler.validate c.event).valid
  · simp only [hrules hv]
    by_cases hr : (obj.handler.checkRules c.event).valid
    · have hpasses : obj.passes c.event = true := by simp [HandlerObject.passes, hv, hr]
      rw [if_pos hpasses] at h
      have hretry := any_accepts_of_answers fun call hcall ↦
        h call (List.mem_append_right _ hcall)
      simp only [handleWithRetry, (p.maybeCleanup_frame c.nowMs).1, handler_toRegistry, hobj,
        hretry]
      rfl
    · simp only [hr]
      rfl
  · simp only [hv]
    rfl

end Answers

/-! ### Runs -/

/-- The registry, the processors and what they write to; the events given to a processor so far,
and the handler registered for each when it came; the events that `BatchProcessor::process` has
let through and not bucketed yet; and the calls made on handlers. -/
structure HandlerRun where
  handlers : HandlerTable
  realtime : RealtimeProcessor
  transactional : TransactionalProcessor
  batch : BatchProcessor
  io : Sinks
  arrivals : Nat
  resolved : Nat → HandlerObject
  waiting : List Arrival
  calls : List HandlerCall

/-- What happens next. -/
inductive HandlerLabel where
  | registerHandler (topicPrefix : Bytes) (id : Nat) (impl : BodyHandler)
  | clear
  | realtime (c : ProcessCall)
  | transactional (c : ProcessCall)
  | batchCheck (event : Event) (now : Nat)
  | batchBucket (i : Nat) (env : BatchEnv)
  | batchFlush (topic : Bytes) (env : BatchEnv)
  | pause (paused : Bool)
  | dropBatchEvents (dropEvents : Bool)

namespace HandlerRun

/-- An event is given to a processor, which finds a handler and makes these calls on it. -/
def arrive (s : HandlerRun) (h : HandlerObject) (calls : List HandlerCall) : HandlerRun :=
  { s with
    arrivals := s.arrivals + 1
    resolved := Function.update s.resolved s.arrivals h
    calls := s.calls ++ calls }

/-- A call of `RealtimeProcessor::process`. -/
def callRealtime (s : HandlerRun) (c : ProcessCall) : HandlerRun :=
  let h := s.handlers.getOrDefault c.event.topic
  let (realtime, io, _) := s.realtime.process s.io { c with handlers := s.handlers.toRegistry }
  { s.arrive h (RealtimeProcessor.handlerCalls h s.arrivals c.event) with realtime, io }

/-- A call of `TransactionalProcessor::process`. -/
def callTransactional (s : HandlerRun) (c : ProcessCall) : HandlerRun :=
  let h := s.handlers.getOrDefault c.event.topic
  let (transactional, io, _) :=
    s.transactional.process s.io { c with handlers := s.handlers.toRegistry }
  { s.arrive h (s.transactional.handlerCalls h s.arrivals c.event) with transactional, io }

/-- `BatchProcessor::process` until it takes its mutex. Only an event let through gets there. -/
def checkBatch (s : HandlerRun) (event : Event) (now : Nat) : HandlerRun :=
  let h := s.handlers.getOrDefault event.topic
  let a : Arrival := ⟨s.arrivals, now, event⟩
  let env : BatchEnv := ⟨s.handlers.toRegistry, fun _ ↦ false, fun _ ↦ false⟩
  let s' := s.arrive h (s.batch.handlerCalls h s.arrivals event)
  if s.batch.accepts env event then { s' with waiting := s.waiting ++ [a] }
  else
    let (batch, calls, _) := s.batch.process s.io env a
    { s' with batch, io := calls.foldl BatchCall.apply s.io }

/-- The rest of `BatchProcessor::process`, for the `i`-th event that waits for it. -/
def bucketBatch (s : HandlerRun) (i : Nat) (a : Arrival) (env : BatchEnv) : HandlerRun :=
  let h := s.handlers.getOrDefault a.event.topic
  let (batch, calls, _) :=
    s.batch.bucketEvent s.io { env with handlers := s.handlers.toRegistry } a
  { s with
    batch
    io := calls.foldl BatchCall.apply s.io
    waiting := s.waiting.eraseIdx i
    calls := s.calls ++ flushCalls h 1 (handledEvents calls) }

/-- One round of the loop of `BatchProcessor::stop`. -/
def flushBatch (s : HandlerRun) (topic : Bytes) (env : BatchEnv) : HandlerRun :=
  let h := s.handlers.getOrDefault topic
  let (bucket, calls, _) := BatchProcessor.flushBucketLocked s.io
    { env with handlers := s.handlers.toRegistry } topic (s.batch.buckets topic)
  { s with
    batch := s.batch.putBucket topic bucket
    io := calls.foldl BatchCall.apply s.io
    calls := s.calls ++ flushCalls h 1 (handledEvents calls) }

/-- One step. -/
def step (s : HandlerRun) : HandlerLabel → Option HandlerRun
  | .registerHandler topicPrefix id impl =>
    some { s with handlers := s.handlers.registerHandler topicPrefix ⟨some id, impl⟩ }
  | .clear => some { s with handlers := [] }
  | .realtime c => some (s.callRealtime c)
  | .transactional c => some (s.callTransactional c)
  | .batchCheck event now => some (s.checkBatch event now)
  | .batchBucket i env => s.waiting[i]?.map fun a ↦ s.bucketBatch i a env
  | .batchFlush topic env =>
    if topic ∈ s.batch.topics then some (s.flushBatch topic env) else none
  | .pause paused => some { s with transactional := { s.transactional with paused } }
  | .dropBatchEvents dropEvents => some { s with batch := { s.batch with dropEvents } }

/-- Every call of `checkRules` and `handle` is made on an event that the same handler has
validated, and no handler that reads the body reads outside it. -/
def Safe (s : HandlerRun) : Prop :=
  Historic HandlerCall.Validated [] s.calls ∧
  ∀ c ∈ s.calls, c.handler.impl ∈
    [sensorTemperatureHandler, sensorPressureHandler, paymentEventHandler] → c.InBounds

end HandlerRun

/-- All interleavings, from new processors and the handlers registered so far. -/
def handlerRuns (maxProcessingMs : Int) (maxRetries window : Nat) (eventBus : Bool) (io : Sinks)
    (handlers : HandlerTable) : Machine HandlerRun HandlerLabel where
  start :=
    { handlers
      realtime := ⟨maxProcessingMs, .initial, []⟩
      transactional := ⟨false, maxRetries, .initial, 0, .initial, .initial⟩
      batch := .initial window eventBus
      io
      arrivals := 0
      resolved := fun _ ↦ fallback
      waiting := []
      calls := [] }
  step := HandlerRun.step

/-- Of what the processor meets, an event that is refused meets only the handlers. -/
theorem BatchProcessor.process_of_refused (p : BatchProcessor) (io : Sinks) (env env' : BatchEnv)
    (a : Arrival) (hhandlers : env.handlers = env'.handlers)
    (hrefused : p.accepts env a.event = false) : p.process io env a = p.process io env' a := by
  unfold process
  rw [accepts, hhandlers] at hrefused
  rw [hhandlers]
  split
  · rfl
  next hdrop =>
  dsimp only
  split
  · rfl
  next hvalid =>
  split
  · rfl
  next hrules =>
  rw [Bool.not_eq_true, Bool.not_eq_false'] at hvalid hrules
  simp [hdrop, hvalid, hrules] at hrefused

namespace HandlerRun

/-- The two steps of a call of `BatchProcessor::process`, with no other step between them. -/
theorem checkBatch_bucketBatch (s : HandlerRun) (event : Event) (now : Nat) (env : BatchEnv) :
    let a : Arrival := ⟨s.arrivals, now, event⟩
    let r := s.batch.process s.io { env with handlers := s.handlers.toRegistry } a
    let s' := s.checkBatch event now
    (s'.batch = r.1 ∧ s'.io = r.2.1.foldl BatchCall.apply s.io ∧ s'.waiting = s.waiting) ∨
    (s'.waiting = s.waiting ++ [a] ∧
      (s'.bucketBatch s.waiting.length a env).batch = r.1 ∧
      (s'.bucketBatch s.waiting.length a env).io = r.2.1.foldl BatchCall.apply s.io) := by
  intro a r s'
  obtain ⟨hrefused, bus, reason, -, hr⟩ | ⟨haccepts, hr⟩ :=
    s.batch.process_cases s.io { env with handlers := s.handlers.toRegistry } a
  · left
    have hs' : s' = s.checkBatch event now := rfl
    have hrun : s.batch.process s.io ⟨s.handlers.toRegistry, fun _ ↦ false, fun _ ↦ false⟩ a = r :=
      s.batch.process_of_refused s.io _ _ a rfl hrefused
    have hno : ¬s.batch.accepts ⟨s.handlers.toRegistry, fun _ ↦ false, fun _ ↦ false⟩ event :=
      Bool.eq_false_iff.mp hrefused
    rw [checkBatch, if_neg hno, hrun] at hs'
    rw [hs']
    exact ⟨rfl, rfl, rfl⟩
  · right
    have hs' : s' = { s.arrive (s.handlers.getOrDefault event.topic) (s.batch.handlerCalls
        (s.handlers.getOrDefault event.topic) s.arrivals event) with
          waiting := s.waiting ++ [a] } := if_pos haccepts
    rw [hs']
    refine ⟨rfl, ?_, ?_⟩
    · exact congrArg Prod.fst hr.symm
    · exact congrArg (fun r ↦ List.foldl BatchCall.apply s.io r.2.1) hr.symm

/-- The loop of `BatchProcessor::stop` takes its rounds one after the other. -/
theorem flushAll_cons (s : HandlerRun) (topic : Bytes) (rest : List Bytes) (env : BatchEnv) :
    let env' : BatchEnv := { env with handlers := s.handlers.toRegistry }
    (s.batch.flushAll s.io env' (topic :: rest)).1 =
      if (BatchProcessor.flushBucketLocked s.io env' topic (s.batch.buckets topic)).2.2 = .threw
      then (s.flushBatch topic env).batch
      else ((s.flushBatch topic env).batch.flushAll s.io env' rest).1 := by
  intro env'
  rw [BatchProcessor.flushAll]
  unfold flushBatch
  cases BatchProcessor.flushBucketLocked s.io env' topic (s.batch.buckets topic) with
  | mk bucket result =>
    obtain ⟨calls, outcome⟩ := result
    cases outcome <;> rfl

end HandlerRun

end EventStreamCore.Processor
