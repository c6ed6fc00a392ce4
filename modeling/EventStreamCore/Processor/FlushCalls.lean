import EventStreamCore.Processor.HandlerCalls

/-!
# The calls of one process and of one flush

A call of `process` makes nothing but calls for its own event, the validation first; a flush calls
`handle` for the events of the bucket, up to the first round that throws,
`src/core/processor/batch.cpp:104–127`.
-/

namespace EventStreamCore.Processor
open EventStreamCore.Lib EventStreamCore.Events EventStreamCore.Storage

/-! ### Calls of one `process` -/

/-- Nothing, or one validation and, if it succeeds, further calls on the same handler for the
same event. -/
def CallsOf (h : HandlerObject) (k : Nat) (event : Event) (calls : List HandlerCall) : Prop :=
  calls = [] ∨ ∃ rest, calls = ⟨h, .validate, k, event⟩ :: rest ∧
    ∀ c ∈ rest, (h.handler.validate event).valid ∧
      ∃ method, method ≠ .validate ∧ c = ⟨h, method, k, event⟩

private theorem callsOf_checkCalls_append (h : HandlerObject) (k : Nat) (event : Event)
    {more : List HandlerCall} (hmore : ∀ c ∈ more, h.passes event ∧
      ∃ method, method ≠ .validate ∧ c = ⟨h, method, k, event⟩) :
    CallsOf h k event (checkCalls h k event ++ more) := by
  refine .inr ⟨_, rfl, fun c hc ↦ ?_⟩
  rcases List.mem_append.mp hc with hc | hc
  · split at hc
    · next hvalid => exact ⟨hvalid, .checkRules, nofun, List.mem_singleton.mp hc⟩
    · cases hc
  · obtain ⟨hpasses, hcall⟩ := hmore c hc
    exact ⟨(Bool.and_eq_true _ _ ▸ hpasses).1, hcall⟩

private theorem mem_retryCalls {h : HandlerObject} {k : Nat} {event : Event} {c : HandlerCall}
    {attempts : List Nat} (hc : c ∈ retryCalls h k event attempts) :
    ∃ attempt, c = ⟨h, .handle attempt, k, event⟩ := by
  induction attempts with
  | nil => cases hc
  | cons attempt rest ih =>
    rcases List.mem_cons.mp hc with rfl | hc
    · exact ⟨attempt, rfl⟩
    · split at hc
      · cases hc
      · exact ih hc

theorem RealtimeProcessor.callsOf_handlerCalls (h : HandlerObject) (k : Nat) (event : Event) :
    CallsOf h k event (RealtimeProcessor.handlerCalls h k event) := by
  refine callsOf_checkCalls_append h k event fun c hc ↦ ?_
  split at hc
  · next hpasses => exact ⟨hpasses, .handle 1, by simp, List.mem_singleton.mp hc⟩
  · cases hc

theorem TransactionalProcessor.callsOf_handlerCalls (p : TransactionalProcessor)
    (h : HandlerObject) (k : Nat) (event : Event) :
    CallsOf h k event (p.handlerCalls h k event) := by
  unfold handlerCalls
  split
  · exact .inl rfl
  · split
    · exact .inl rfl
    · refine callsOf_checkCalls_append h k event fun c hc ↦ ?_
      split at hc
      · next hpasses =>
        obtain ⟨attempt, hcall⟩ := mem_retryCalls hc
        exact ⟨hpasses, .handle attempt, by simp, hcall⟩
      · cases hc

theorem BatchProcessor.callsOf_handlerCalls (p : BatchProcessor) (h : HandlerObject) (k : Nat)
    (event : Event) : CallsOf h k event (p.handlerCalls h k event) := by
  unfold handlerCalls
  split
  · exact .inl rfl
  · have hnone : CallsOf h k event (checkCalls h k event ++ []) :=
      callsOf_checkCalls_append h k event fun _ hc ↦ absurd hc List.not_mem_nil
    rwa [List.append_nil] at hnone

/-- An event that the batch processor lets through has been validated. -/
theorem BatchProcessor.validated_of_accepts {p : BatchProcessor} {handlers : HandlerTable}
    {event : Event} (k : Nat)
    (haccepts : p.accepts ⟨handlers.toRegistry, fun _ ↦ false, fun _ ↦ false⟩ event) :
    let h := handlers.getOrDefault event.topic
    (h.handler.validate event).valid ∧
      (⟨h, .validate, k, event⟩ : HandlerCall) ∈ p.handlerCalls h k event := by
  simp only [accepts, HandlerTable.getOrDefault_toRegistry, Bool.and_eq_true,
    Bool.not_eq_true'] at haccepts
  obtain ⟨⟨hdrop, hvalid⟩, -⟩ := haccepts
  refine ⟨hvalid, ?_⟩
  simp only [handlerCalls, hdrop, Bool.false_eq_true, if_false]
  exact List.mem_cons_self

namespace CallsOf

variable {h : HandlerObject} {k : Nat} {event : Event} {calls past : List HandlerCall}

/-- A call of `process` validates before it does anything else. -/
theorem historic (hc : CallsOf h k event calls) : Historic HandlerCall.Validated past calls := by
  rcases hc with rfl | ⟨rest, rfl, hrest⟩
  · trivial
  · refine ⟨fun hne ↦ absurd rfl hne, historic_of_forall HandlerCall.validated_mono ?_⟩
    intro c hc
    obtain ⟨hvalid, method, -, rfl⟩ := hrest c hc
    exact fun _ ↦ ⟨List.mem_append_right past List.mem_cons_self, hvalid⟩

/-- All calls are on the handler that was found. -/
theorem validations (hc : CallsOf h k event calls) :
    ∀ c ∈ calls, c.ticket = k ∧ c.handler = h := by
  rcases hc with rfl | ⟨rest, rfl, hrest⟩
  · exact fun _ hc ↦ absurd hc List.not_mem_nil
  · intro c hc
    rcases List.mem_cons.mp hc with rfl | hc
    · exact ⟨rfl, rfl⟩
    · obtain ⟨-, method, -, rfl⟩ := hrest c hc
      exact ⟨rfl, rfl⟩

end CallsOf

/-! ### Calls of a flush -/

namespace BatchProcessor

/-- Does the `i`-th round of the flush loop end in an exception, of `handle` or of the write that
follows if the handler takes the event? -/
def roundThrows (io : Sinks) (env : BatchEnv) (handler : EventHandler) (i : Nat) (a : Arrival) :
    Bool :=
  env.handleThrows a ||
    ((handler.handle a.event i).outcome.accepts && io.storage.isSome && env.storeFails a)

/-- The events that the flush loop gets to, from the `i`-th round on. -/
def reached (io : Sinks) (env : BatchEnv) (handler : EventHandler) :
    Nat → List Arrival → List Arrival
  | _, [] => []
  | i, a :: rest =>
    a :: if roundThrows io env handler i a then [] else reached io env handler (i + 1) rest

theorem reached_handlers (io : Sinks) (env : BatchEnv) (handlers : EventHandlerRegistry)
    (handler : EventHandler) (i : Nat) (events : List Arrival) :
    reached io { env with handlers } handler i events = reached io env handler i events := by
  induction events generalizing i with
  | nil => rfl
  | cons a rest ih =>
    rw [reached, reached, ih]
    rfl

theorem mem_of_mem_reached {io : Sinks} {env : BatchEnv} {handler : EventHandler} {i : Nat}
    {events : List Arrival} {a : Arrival} (ha : a ∈ reached io env handler i events) :
    a ∈ events := by
  induction events generalizing i with
  | nil => exact ha
  | cons b rest ih =>
    rcases List.mem_cons.mp ha with rfl | ha
    · exact List.mem_cons_self
    · split at ha
      · cases ha
      · exact List.mem_cons_of_mem b (ih ha)

theorem flushEvent_threw_iff (io : Sinks) (env : BatchEnv) (handler : EventHandler) (i : Nat)
    (a : Arrival) :
    (flushEvent io env handler i a).2 = .threw ↔ roundThrows io env handler i a = true := by
  unfold flushEvent roundThrows
  cases env.handleThrows a with
  | true => simp
  | false =>
    cases houtcome : (handler.handle a.event i).outcome <;>
      cases io.storage.isSome <;> cases env.storeFails a <;> simp [HandleOutcome.accepts, houtcome]

/-- The loop passes to `handle` exactly the events it gets to. -/
theorem handledEvents_flushEvents (io : Sinks) (env : BatchEnv) (handler : EventHandler) (i : Nat)
    (events : List Arrival) :
    handledEvents (flushEvents io env handler i events).1 = reached io env handler i events := by
  induction events generalizing i with
  | nil => rfl
  | cons a rest ih =>
    have hhandled := flushEvent_handled io env handler i a
    have hthrew := flushEvent_threw_iff io env handler i a
    rw [flushEvents, reached]
    cases hround : flushEvent io env handler i a with
    | mk calls outcome =>
      rw [hround] at hhandled hthrew
      dsimp only at hhandled hthrew
      cases outcome with
      | threw =>
        rw [if_pos (hthrew.mp rfl)]
        exact hhandled
      | returned =>
        rw [if_neg fun hthrows ↦ nomatch hthrew.mpr hthrows]
        dsimp only
        rw [handledEvents_append, hhandled, ih]
        rfl

/-- A flush passes to the handler of its topic the events its loop gets to, and keeps some of
the events or none. -/
theorem flushBucketLocked_handled (io : Sinks) (env : BatchEnv) (topic : Bytes)
    (bucket : TopicBucket) :
    handledEvents (flushBucketLocked io env topic bucket).2.1 = reached io env
      (EventHandlerRegistry.getOrDefault env.handlers topic) 1 bucket.events ∧
    ∀ a ∈ (flushBucketLocked io env topic bucket).1.events, a ∈ bucket.events := by
  have hloop := handledEvents_flushEvents io env
    (EventHandlerRegistry.getOrDefault env.handlers topic) 1 bucket.events
  unfold flushBucketLocked
  split
  · next hempty =>
    rw [List.isEmpty_iff.mp hempty]
    exact ⟨rfl, fun _ ha ↦ ha⟩
  · dsimp only
    split
    · next hflush =>
      rw [hflush] at hloop
      exact ⟨hloop, fun _ ha ↦ ha⟩
    · next hflush =>
      rw [hflush] at hloop
      exact ⟨hloop, fun _ ha ↦ absurd ha List.not_mem_nil⟩

/-- The events that a call of `process` flushes for this one. -/
def flushedBy (p : BatchProcessor) (a : Arrival) : List Arrival :=
  if p.flushDue a.event.topic a.arrivedAt then (p.buckets a.event.topic).events ++ [a] else []

/-- An event of a bucket after one bucket was written. -/
theorem mem_putBucket {p : BatchProcessor} {bucket : TopicBucket} {topic topic' : Bytes}
    {a : Arrival} (ha : a ∈ ((p.putBucket topic bucket).buckets topic').events) :
    a ∈ (p.buckets topic').events ∨ topic' = topic ∧ a ∈ bucket.events := by
  simp only [putBucket] at ha
  by_cases htopic : topic' = topic
  · subst htopic
    rw [Function.update_self] at ha
    exact .inr ⟨rfl, ha⟩
  · rw [Function.update_of_ne htopic] at ha
    exact .inl ha

/-- Bucketing an event passes to the handler of its topic the events of the flush, if one is due,
and every bucket has events that it had, or the new one. -/
theorem bucketEvent_handled (p : BatchProcessor) (io : Sinks) (env : BatchEnv) (a : Arrival) :
    handledEvents (p.bucketEvent io env a).2.1 = reached io env
      (EventHandlerRegistry.getOrDefault env.handlers a.event.topic) 1 (p.flushedBy a) ∧
    ∀ topic, ∀ b ∈ ((p.bucketEvent io env a).1.buckets topic).events,
      b ∈ (p.buckets topic).events ∨ b = a := by
  have hput : ∀ (p : BatchProcessor) (bucket : TopicBucket),
      (∀ b ∈ bucket.events, b ∈ (p.buckets a.event.topic).events ++ [a]) →
      ∀ topic, ∀ b ∈ ((p.putBucket a.event.topic bucket).buckets topic).events,
        b ∈ (p.buckets topic).events ∨ b = a := by
    intro p bucket hbucket topic b hb
    rcases mem_putBucket hb with hold | ⟨rfl, hnew⟩
    · exact .inl hold
    · exact (List.mem_append.mp (hbucket b hnew)).imp_right List.mem_singleton.mp
  rw [flushedBy]
  obtain ⟨hdue, lastFlushTime, hp⟩ | ⟨hdue, lastFlushTime, hp⟩ := p.bucketEvent_cases io env a
  · rw [hp, hdue]
    exact ⟨rfl, hput { p with metrics := p.metrics.processed } _ fun _ hb ↦ hb⟩
  · obtain ⟨hhandled, hkept⟩ := flushBucketLocked_handled io env a.event.topic
      ⟨(p.buckets a.event.topic).events ++ [a], (p.buckets a.event.topic).lastFlushTime⟩
    rw [hp, hdue]
    exact ⟨hhandled, hput { p with metrics := p.metrics.processed } _ hkept⟩

end BatchProcessor

end EventStreamCore.Processor
