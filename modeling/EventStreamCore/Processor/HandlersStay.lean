import EventStreamCore.Processor.FlushCalls

/-!
# Where the handlers stay

Every call of `checkRules` and `handle` is made on an event that the same handler has validated in
exactly the runs in which a flush finds for each event the handler found for it when it came.
-/

namespace EventStreamCore.Processor
open EventStreamCore.Lib EventStreamCore.Events EventStreamCore.Storage

namespace HandlerRun

variable {s t : HandlerRun}

/-- The event waits to be bucketed or to be flushed. -/
def Holds (s : HandlerRun) (a : Arrival) : Prop :=
  a ∈ s.waiting ∨ ∃ topic, a ∈ (s.batch.buckets topic).events

/-- When a bucket is flushed, the lookup of its topic finds for each event that the flush gets to
the handler that was found for it when it came. -/
def HandlersStay (s : HandlerRun) : HandlerLabel → Prop
  | .batchBucket i env =>
    ∀ a, s.waiting[i]? = some a →
      ∀ b ∈ BatchProcessor.reached s.io env (s.handlers.getOrDefault a.event.topic).handler 1
        (s.batch.flushedBy a), s.handlers.getOrDefault a.event.topic = s.resolved b.ticket
  | .batchFlush topic env =>
    topic ∈ s.batch.topics →
      ∀ b ∈ BatchProcessor.reached s.io env (s.handlers.getOrDefault topic).handler 1
        (s.batch.buckets topic).events, s.handlers.getOrDefault topic = s.resolved b.ticket
  | _ => True

/-- What was called for an event was called on the handler found for it, and the events that wait
were validated by theirs. -/
structure Inv (s : HandlerRun) : Prop where
  historic : Historic HandlerCall.Validated [] s.calls
  resolved : ∀ c ∈ s.calls, c.method = .validate →
    c.ticket < s.arrivals ∧ c.handler = s.resolved c.ticket
  held : ∀ a, s.Holds a → a.ticket < s.arrivals ∧
    ((s.resolved a.ticket).handler.validate a.event).valid ∧
    ⟨s.resolved a.ticket, .validate, a.ticket, a.event⟩ ∈ s.calls

/-- No event read outside its body. -/
theorem Inv.safe (h : s.Inv) : s.Safe := by
  refine ⟨h.historic, fun c hc himpl ↦ ?_⟩
  obtain ⟨pre, post, hsplit⟩ := List.append_of_mem hc
  have hvalidated := historic_iff.mp h.historic pre c post hsplit
  rw [List.nil_append] at hvalidated
  refine hvalidated.inBounds ?_
  rcases List.mem_cons.mp himpl with himpl | himpl
  · exact himpl ▸ sensorTemperatureHandler_guarded
  rcases List.mem_cons.mp himpl with himpl | himpl
  · exact himpl ▸ sensorPressureHandler_guarded
  · exact List.mem_singleton.mp himpl ▸ paymentEventHandler_guarded

/-- A step that calls no handler and holds no new event. -/
theorem Inv.of_same (h : s.Inv) (hcalls : t.calls = s.calls) (harrivals : t.arrivals = s.arrivals)
    (hresolved : t.resolved = s.resolved) (hholds : ∀ a, t.Holds a → s.Holds a) : t.Inv where
  historic := hcalls ▸ h.historic
  resolved := by
    rw [hcalls, harrivals, hresolved]
    exact h.resolved
  held a ha := by
    rw [hcalls, harrivals, hresolved]
    exact h.held a (hholds a ha)

/-- A new event, on whose handler its processor makes the calls of one `process`. -/
theorem Inv.arrive (h : s.Inv) {obj : HandlerObject} {event : Event} {calls : List HandlerCall}
    (hcalls : CallsOf obj s.arrivals event calls) (ht : t.calls = s.calls ++ calls)
    (harrivals : t.arrivals = s.arrivals + 1)
    (hresolved : t.resolved = Function.update s.resolved s.arrivals obj)
    (hholds : ∀ a, t.Holds a → s.Holds a ∨ a.ticket = s.arrivals ∧
      (obj.handler.validate a.event).valid ∧
      ⟨obj, .validate, s.arrivals, a.event⟩ ∈ calls) : t.Inv where
  historic := by
    rw [ht, historic_append, List.nil_append]
    exact ⟨h.historic, hcalls.historic⟩
  resolved c hc hvalidate := by
    rw [ht] at hc
    rw [harrivals, hresolved]
    rcases List.mem_append.mp hc with hc | hc
    · obtain ⟨hlt, hold⟩ := h.resolved c hc hvalidate
      refine ⟨Nat.lt_succ_of_lt hlt, ?_⟩
      rw [Function.update_of_ne (Nat.ne_of_lt hlt)]
      exact hold
    · obtain ⟨hticket, hobj⟩ := hcalls.validations c hc
      rw [hticket, Function.update_self]
      exact ⟨Nat.lt_succ_self _, hobj⟩
  held a ha := by
    rw [ht, harrivals, hresolved]
    rcases hholds a ha with hold | ⟨hticket, hvalid, hmem⟩
    · obtain ⟨hlt, hvalid, hmem⟩ := h.held a hold
      rw [Function.update_of_ne (Nat.ne_of_lt hlt)]
      exact ⟨Nat.lt_succ_of_lt hlt, hvalid, List.mem_append_left _ hmem⟩
    · rw [hticket, Function.update_self]
      exact ⟨Nat.lt_succ_self _, hvalid, List.mem_append_right _ hmem⟩

private theorem mem_flushCalls {obj : HandlerObject} {i : Nat} {events : List Arrival}
    {c : HandlerCall} (hc : c ∈ flushCalls obj i events) :
    ∃ attempt, ∃ b ∈ events, c = ⟨obj, .handle attempt, b.ticket, b.event⟩ := by
  induction events generalizing i with
  | nil => cases hc
  | cons a rest ih =>
    rcases List.mem_cons.mp hc with rfl | hc
    · exact ⟨i, a, List.mem_cons_self, rfl⟩
    · obtain ⟨attempt, b, hb, hcall⟩ := ih hc
      exact ⟨attempt, b, List.mem_cons_of_mem a hb, hcall⟩

private theorem exists_mem_flushCalls (obj : HandlerObject) (i : Nat) {events : List Arrival}
    {b : Arrival} (hb : b ∈ events) :
    ∃ attempt, ⟨obj, .handle attempt, b.ticket, b.event⟩ ∈ flushCalls obj i events := by
  induction events generalizing i with
  | nil => cases hb
  | cons a rest ih =>
    rcases List.mem_cons.mp hb with rfl | hb
    · exact ⟨i, List.mem_cons_self⟩
    · obtain ⟨attempt, hmem⟩ := ih (i + 1) hb
      exact ⟨attempt, List.mem_cons_of_mem _ hmem⟩

/-- A flush calls `handle` on validated events exactly if it found the handlers that were found
for them when they came. -/
theorem Inv.flush_iff (h : s.Inv) (obj : HandlerObject) {events : List Arrival}
    (hevents : ∀ b ∈ events, s.Holds b) :
    Historic HandlerCall.Validated [] (s.calls ++ flushCalls obj 1 events) ↔
      ∀ b ∈ events, obj = s.resolved b.ticket := by
  rw [historic_append, List.nil_append]
  constructor
  · rintro ⟨-, hflush⟩ b hb
    obtain ⟨attempt, hmem⟩ := exists_mem_flushCalls obj 1 hb
    obtain ⟨pre, post, hsplit⟩ := List.append_of_mem hmem
    -- the validation cannot be one of the calls of the flush
    have hvalidated := (historic_iff.mp hflush pre _ post hsplit nofun).1
    rcases List.mem_append.mp hvalidated with hpast | hpre
    · exact (h.resolved _ hpast rfl).2
    · have hflushed : (⟨obj, .validate, b.ticket, b.event⟩ : HandlerCall) ∈
          flushCalls obj 1 events := hsplit ▸ List.mem_append_left _ hpre
      obtain ⟨attempt', b', -, hcall⟩ := mem_flushCalls hflushed
      cases congrArg HandlerCall.method hcall
  · intro hstay
    refine ⟨h.historic, historic_of_forall HandlerCall.validated_mono fun c hc hne ↦ ?_⟩
    obtain ⟨attempt, b, hb, rfl⟩ := mem_flushCalls hc
    obtain ⟨-, hvalid, hmem⟩ := h.held b (hevents b hb)
    rw [← hstay b hb] at hvalid hmem
    exact ⟨hmem, hvalid⟩

/-- A flush on the handlers that were found for its events when they came. -/
theorem Inv.flush (h : s.Inv) {obj : HandlerObject} {events : List Arrival}
    (hevents : ∀ b ∈ events, s.Holds b) (hstay : ∀ b ∈ events, obj = s.resolved b.ticket)
    (ht : t.calls = s.calls ++ flushCalls obj 1 events) (harrivals : t.arrivals = s.arrivals)
    (hresolved : t.resolved = s.resolved) (hholds : ∀ a, t.Holds a → s.Holds a) : t.Inv where
  historic := by
    rw [ht]
    exact (h.flush_iff obj hevents).mpr hstay
  resolved c hc hvalidate := by
    rw [ht] at hc
    rw [harrivals, hresolved]
    rcases List.mem_append.mp hc with hc | hc
    · exact h.resolved c hc hvalidate
    · obtain ⟨attempt, b, -, rfl⟩ := mem_flushCalls hc
      cases hvalidate
  held a ha := by
    rw [ht, harrivals, hresolved]
    obtain ⟨hlt, hvalid, hmem⟩ := h.held a (hholds a ha)
    exact ⟨hlt, hvalid, List.mem_append_left _ hmem⟩

/-- What the second half of `BatchProcessor::process` calls and holds. -/
theorem bucketBatch_spec {i : Nat} {a : Arrival} (env : BatchEnv) (ha : s.waiting[i]? = some a) :
    (s.bucketBatch i a env).calls = s.calls ++
      flushCalls (s.handlers.getOrDefault a.event.topic) 1
        (BatchProcessor.reached s.io env (s.handlers.getOrDefault a.event.topic).handler 1
          (s.batch.flushedBy a)) ∧
    (∀ b ∈ s.batch.flushedBy a, s.Holds b) ∧ ∀ b, (s.bucketBatch i a env).Holds b → s.Holds b := by
  have hmem : a ∈ s.waiting := List.mem_of_getElem? ha
  obtain ⟨hhandled, hbuckets⟩ := s.batch.bucketEvent_handled s.io
    { env with handlers := s.handlers.toRegistry } a
  rw [HandlerTable.getOrDefault_toRegistry, BatchProcessor.reached_handlers] at hhandled
  refine ⟨?_, fun b hb ↦ ?_, fun b hb ↦ ?_⟩
  · rw [← hhandled]
    rfl
  · rw [BatchProcessor.flushedBy] at hb
    split at hb
    · rcases List.mem_append.mp hb with hb | hb
      · exact .inr ⟨_, hb⟩
      · exact .inl (List.mem_singleton.mp hb ▸ hmem)
    · cases hb
  · rcases hb with hb | ⟨topic, hb⟩
    · exact .inl (List.mem_of_mem_eraseIdx hb)
    · rcases hbuckets topic b hb with hold | rfl
      · exact .inr ⟨topic, hold⟩
      · exact .inl hmem

/-- What a round of `BatchProcessor::stop` calls and holds. -/
theorem flushBatch_spec (s : HandlerRun) (topic : Bytes) (env : BatchEnv) :
    (s.flushBatch topic env).calls = s.calls ++
      flushCalls (s.handlers.getOrDefault topic) 1
        (BatchProcessor.reached s.io env (s.handlers.getOrDefault topic).handler 1
          (s.batch.buckets topic).events) ∧
    ∀ b, (s.flushBatch topic env).Holds b → s.Holds b := by
  obtain ⟨hhandled, hkept⟩ := BatchProcessor.flushBucketLocked_handled s.io
    { env with handlers := s.handlers.toRegistry } topic (s.batch.buckets topic)
  rw [HandlerTable.getOrDefault_toRegistry, BatchProcessor.reached_handlers] at hhandled
  constructor
  · rw [← hhandled]
    rfl
  · rintro b (hb | ⟨topic', hb⟩)
    · exact .inl hb
    · rcases BatchProcessor.mem_putBucket hb with hold | ⟨rfl, hnew⟩
      · exact .inr ⟨topic', hold⟩
      · exact .inr ⟨topic', hkept b hnew⟩

/-- What the first half of `BatchProcessor::process` holds. -/
theorem checkBatch_holds {event : Event} {now : Nat} {b : Arrival}
    (hb : (s.checkBatch event now).Holds b) :
    s.Holds b ∨ b.ticket = s.arrivals ∧
      ((s.handlers.getOrDefault event.topic).handler.validate b.event).valid ∧
      ⟨s.handlers.getOrDefault event.topic, .validate, s.arrivals, b.event⟩ ∈
        s.batch.handlerCalls (s.handlers.getOrDefault event.topic) s.arrivals event := by
  unfold checkBatch at hb
  dsimp only at hb
  split at hb
  · next haccepts =>
    obtain ⟨hvalid, hcall⟩ := BatchProcessor.validated_of_accepts s.arrivals haccepts
    rcases hb with hb | hb
    · rcases List.mem_append.mp hb with hb | hb
      · exact .inl (.inl hb)
      · rw [List.mem_singleton.mp hb]
        exact .inr ⟨rfl, hvalid, hcall⟩
    · exact .inl (.inr hb)
  · next hrefused =>
    obtain ⟨-, bus, reason, -, hdrop⟩ | ⟨haccepts, -⟩ := s.batch.process_cases s.io
      ⟨s.handlers.toRegistry, fun _ ↦ false, fun _ ↦ false⟩ ⟨s.arrivals, now, event⟩
    · rw [hdrop] at hb
      exact .inl hb
    · exact absurd haccepts hrefused

/-- Every step keeps what was found out about the events, if the handlers stay. -/
theorem Inv.step {l : HandlerLabel} (h : s.Inv) (hstay : s.HandlersStay l)
    (hs : s.step l = some t) : t.Inv := by
  cases l with
  | registerHandler topicPrefix id impl =>
    cases hs
    exact h.of_same rfl rfl rfl fun _ ha ↦ ha
  | clear =>
    cases hs
    exact h.of_same rfl rfl rfl fun _ ha ↦ ha
  | realtime c =>
    cases hs
    exact h.arrive (RealtimeProcessor.callsOf_handlerCalls _ _ _) rfl rfl rfl fun _ ha ↦ .inl ha
  | transactional c =>
    cases hs
    exact h.arrive (s.transactional.callsOf_handlerCalls _ _ _) rfl rfl rfl fun _ ha ↦ .inl ha
  | batchCheck event now =>
    cases hs
    have hframe : (s.checkBatch event now).calls = s.calls ++ s.batch.handlerCalls
          (s.handlers.getOrDefault event.topic) s.arrivals event ∧
        (s.checkBatch event now).arrivals = s.arrivals + 1 ∧
        (s.checkBatch event now).resolved =
          Function.update s.resolved s.arrivals (s.handlers.getOrDefault event.topic) := by
      unfold checkBatch
      dsimp only
      split <;> exact ⟨rfl, rfl, rfl⟩
    exact h.arrive (s.batch.callsOf_handlerCalls _ _ _) hframe.1 hframe.2.1 hframe.2.2
      fun _ ↦ checkBatch_holds
  | batchBucket i env =>
    obtain ⟨a, ha, rfl⟩ := Option.map_eq_some_iff.mp hs
    obtain ⟨hcalls, hflushed, hholds⟩ := bucketBatch_spec env ha
    exact h.flush (fun b hb ↦ hflushed b (BatchProcessor.mem_of_mem_reached hb)) (hstay a ha)
      hcalls rfl rfl hholds
  | batchFlush topic env =>
    simp only [HandlerRun.step] at hs
    split at hs
    · next htopic =>
      cases hs
      obtain ⟨hcalls, hholds⟩ := s.flushBatch_spec topic env
      exact h.flush (fun b hb ↦ .inr ⟨topic, BatchProcessor.mem_of_mem_reached hb⟩)
        (hstay htopic) hcalls rfl rfl hholds
    · cases hs
  | pause paused =>
    cases hs
    exact h.of_same rfl rfl rfl fun _ ha ↦ ha
  | dropBatchEvents dropEvents =>
    cases hs
    exact h.of_same rfl rfl rfl fun _ ha ↦ ha

/-- If a step is followed by a safe state, the handlers stayed in it. -/
theorem Inv.handlersStay {l : HandlerLabel} (h : s.Inv)
    (hsafe : ∀ t, s.step l = some t → t.Safe) : s.HandlersStay l := by
  cases l with
  | batchBucket i env =>
    intro a ha
    obtain ⟨hcalls, hflushed, -⟩ := bucketBatch_spec env ha
    have hhistoric := (hsafe _ (by rw [HandlerRun.step, ha]; rfl)).1
    rw [hcalls] at hhistoric
    exact (h.flush_iff _ fun b hb ↦ hflushed b (BatchProcessor.mem_of_mem_reached hb)).mp hhistoric
  | batchFlush topic env =>
    intro htopic
    obtain ⟨hcalls, -⟩ := s.flushBatch_spec topic env
    have hhistoric := (hsafe _ (if_pos htopic)).1
    rw [hcalls] at hhistoric
    exact (h.flush_iff _ fun b hb ↦
      .inr ⟨topic, BatchProcessor.mem_of_mem_reached hb⟩).mp hhistoric
  | _ => trivial

/-- A run stays safe in exactly those runs in which, whenever a bucket is flushed, the lookup of
its topic finds for each event that the flush gets to the handler found for it when it came. -/
theorem safe_along_iff (maxProcessingMs : Int) (maxRetries window : Nat) (eventBus : Bool)
    (io : Sinks) (handlers : HandlerTable) (ls : List HandlerLabel) :
    let m := handlerRuns maxProcessingMs maxRetries window eventBus io handlers
    m.Along (fun s l ↦ ∀ t, s.step l = some t → t.Safe) m.start ls ↔
      m.Along HandlersStay m.start ls := by
  intro m
  have hstart : m.start.Inv := by
    refine ⟨trivial, fun c hc ↦ absurd hc List.not_mem_nil, ?_⟩
    rintro a (ha | ⟨topic, ha⟩) <;> cases ha
  refine Machine.along_congr (I := Inv) (fun s l h ↦ ⟨h.handlersStay, fun hstay t ht ↦ ?_⟩)
    (fun s l t h hstay ht ↦ h.step hstay ht) hstart ls
  exact (h.step hstay ht).safe

/-- An event of topic `sensor/temperature` with an empty body, which the fallback validates. -/
def emptyReading : Event :=
  ⟨⟨.tcp, .batch, 1, 0, 0, 18, 0⟩,
    [115, 101, 110, 115, 111, 114, 47, 116, 101, 109, 112, 101, 114, 97, 116, 117, 114, 101],
    [], [], 0⟩

/-- The handler of the topic is registered between the bucketing and the flush, and is passed an
event that it would have refused. -/
theorem not_safe_registered_late :
    let m := handlerRuns 5 3 60 false ⟨none, none, []⟩ []
    let env : BatchEnv := ⟨[], fun _ ↦ false, fun _ ↦ false⟩
    ∃ s, m.run m.start [.batchCheck emptyReading 1, .batchBucket 0 env,
        .registerHandler emptyReading.topic 0 sensorTemperatureHandler,
        .batchFlush emptyReading.topic env] = some s ∧
      (∃ c ∈ s.calls, c.handler.impl = sensorTemperatureHandler ∧ c.event.body = [] ∧
        ¬c.InBounds) ∧ ¬s.Safe := by
  intro m env
  have hout : ∀ obj : HandlerObject, obj.impl = sensorTemperatureHandler →
      ¬HandlerCall.InBounds ⟨obj, .handle 1, 0, emptyReading⟩ := by
    rintro ⟨id, impl⟩ rfl
    exact nofun
  refine ⟨_, rfl, ⟨⟨⟨some 0, sensorTemperatureHandler⟩, .handle 1, 0, emptyReading⟩, ?_, rfl, rfl,
    hout _ rfl⟩, fun hsafe ↦ ?_⟩
  · exact .tail _ (.tail _ (.head _))
  · exact hout ⟨some 0, sensorTemperatureHandler⟩ rfl
      (hsafe.2 _ (.tail _ (.tail _ (.head _))) List.mem_cons_self)

end HandlerRun

end EventStreamCore.Processor
