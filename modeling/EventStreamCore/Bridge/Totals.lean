import EventStreamCore.Bridge.Metrics
import EventStreamCore.Events.DropAccounting
import EventStreamCore.Processor.Batch

/-!
# The published totals

`esccore_metrics`, `src/bridge/esccore.cpp:225–235`, adds up every record of the metric registry,
`src/core/metrics/registry.cpp:42–53`. The bus counts an event as processed when it goes into a
queue, `src/core/events/event_bus.cpp:50–106`, and the processor that takes it out counts it once
more. The runs are those of the pipeline with the loops of `ProcessManager`,
`src/core/processor/manager.cpp:53–73`; a call of `process` is one step.
-/

namespace EventStreamCore.Bridge
open EventStreamCore.Lib EventStreamCore.Queues EventStreamCore.Events EventStreamCore.Processor

/-- The queues, the events popped and not yet given to `process`, the processors and what they
write to. -/
structure Processing where
  pipe : Pipeline
  hands : QueueId → Option Item
  realtime : RealtimeProcessor
  transactional : TransactionalProcessor
  batch : BatchProcessor
  io : Sinks
  arrivals : Nat

/-- What a step is: a `tryPush`, a step of the dispatcher, a `pop` by a processor thread, a call
of `process`, a switch of the control plane, or the flush of all buckets when the batch processor
stops. The event of a call is the popped one with its dequeue time stamped. -/
inductive ProcessingLabel where
  | tryPush (evt : Option Event)
  | dispatcher (timeout : Bool)
  | pop (queueId : QueueId)
  | realtime (c : ProcessCall)
  | transactional (c : ProcessCall)
  | batch (event : Event) (now : Nat) (env : BatchEnv)
  | pause (paused : Bool)
  | dropBatchEvents (dropEvents : Bool)
  | stop (order : List Bytes) (env : BatchEnv)

namespace Processing

/-- Is this the popped event with a dequeue time? -/
def isPopped (item : Item) (event : Event) : Bool :=
  event = { item.event with dequeueTimeNs := event.dequeueTimeNs }

/-- The event in the hands of a processor thread, when it is the given one. -/
def take (s : Processing) (queueId : QueueId) (event : Event) : Option Processing :=
  match s.hands queueId with
  | none => none
  | some item =>
    if isPopped item event then some { s with hands := Function.update s.hands queueId none }
    else none

/-- `dropBatchFromQueue(BATCH)` as `BatchProcessor::process` calls it. -/
def dropBatch (s : Pipeline) : Pipeline :=
  let (batch, bus) := s.bus.takeBatch .batch
  { s with
    bus := if batch.isEmpty then bus else bus.flushBatch batch
    dlqPushes := s.dlqPushes ++ batch }

/-- A call of `RealtimeProcessor::process`. -/
def callRealtime (s : Processing) (c : ProcessCall) : Processing :=
  let (realtime, io, _) := s.realtime.process s.io c
  { s with realtime, io }

/-- A call of `TransactionalProcessor::process`. -/
def callTransactional (s : Processing) (c : ProcessCall) : Processing :=
  let (transactional, io, _) := s.transactional.process s.io c
  { s with transactional, io }

/-- A call of `BatchProcessor::process`. -/
def callBatch (s : Processing) (event : Event) (now : Nat) (env : BatchEnv) : Processing :=
  let (batch, calls, _) := s.batch.process s.io env ⟨s.arrivals, now, event⟩
  { s with
    batch
    io := calls.foldl BatchCall.apply s.io
    pipe := if .dropBatchFromQueue ∈ calls then dropBatch s.pipe else s.pipe
    arrivals := s.arrivals + 1 }

/-- A call of `BatchProcessor::stop`. -/
def callStop (s : Processing) (order : List Bytes) (env : BatchEnv) : Processing :=
  let (batch, calls, _) := s.batch.flushAll s.io env order
  { s with batch, io := calls.foldl BatchCall.apply s.io }

/-- One step. -/
def step (topicTable : Option TopicTable) (s : Processing) : ProcessingLabel → Option Processing
  | .tryPush evt => some { s with pipe := s.pipe.tryPush evt }
  | .dispatcher timeout =>
    (s.pipe.stepDispatcher topicTable timeout).map fun pipe ↦ { s with pipe }
  | .pop queueId =>
    match s.hands queueId, s.pipe.bus.pop queueId with
    | none, some (item, _) =>
      (s.pipe.consume queueId).map fun pipe ↦
        { s with pipe, hands := Function.update s.hands queueId (some item) }
    | _, _ => none
  | .realtime c => (s.take .realtime c.event).map fun s ↦ s.callRealtime c
  | .transactional c => (s.take .transactional c.event).map fun s ↦ s.callTransactional c
  | .batch event now env => (s.take .batch event).map fun s ↦ s.callBatch event now env
  | .pause paused => some { s with transactional := { s.transactional with paused } }
  | .dropBatchEvents dropEvents => some { s with batch := { s.batch with dropEvents } }
  | .stop order env =>
    if order.isPerm s.batch.topics then some (s.callStop order env) else none

/-- A new engine, all counters zero. -/
def initial (buffer : Fin realtimeCapacity.val → Item) (maxProcessingMs : Int) (maxRetries : Nat)
    (window : Nat) (io : Sinks) : Processing where
  pipe := .initial buffer
  hands _ := none
  realtime := ⟨maxProcessingMs, .initial, []⟩
  transactional := ⟨false, maxRetries, .initial, 0, .initial, .initial⟩
  batch := .initial window true
  io := io
  arrivals := 0

/-- What `esccore_metrics` publishes. -/
def metrics (s : Processing) : EscMetrics :=
  esccoreMetrics [s.pipe.bus.metrics, s.realtime.metrics, s.transactional.metrics, s.batch.metrics]
    s.pipe.bus

/-- Does the next operation of the dispatcher count an event that was counted before? The ring
counts the events it gives up, and every attempt on BATCH counts. -/
def recounts : DispatcherPc → Bool
  | .push _ _ _ (.dlqOld _) => true
  | .push _ queueId retryCount _ => queueId = .batch ∧ 0 < retryCount
  | _ => false

/-- No step counts an event again: the dispatcher does not, and the processors are given nothing
but transactional duplicates. -/
def CountsOnce (s : Processing) : ProcessingLabel → Prop
  | .dispatcher _ => recounts s.pipe.dispatcher = false
  | .realtime _ => False
  | .transactional c => s.transactional.discards c = true
  | .batch _ _ _ => False
  | _ => True

instance (s : Processing) (l : ProcessingLabel) : Decidable (s.CountsOnce l) :=
  match l with
  | .dispatcher _ => inferInstanceAs (Decidable (recounts s.pipe.dispatcher = false))
  | .realtime _ => .isFalse id
  | .transactional c => inferInstanceAs (Decidable (s.transactional.discards c = true))
  | .batch _ _ _ => .isFalse id
  | .tryPush _ => .isTrue trivial
  | .pop _ => .isTrue trivial
  | .pause _ => .isTrue trivial
  | .dropBatchEvents _ => .isTrue trivial
  | .stop _ _ => .isTrue trivial

end Processing

/-- All runs of the pipeline and its processors. -/
def processing (topicTable : Option TopicTable) (buffer : Fin realtimeCapacity.val → Item)
    (maxProcessingMs : Int) (maxRetries window : Nat) (io : Sinks) :
    Machine Processing ProcessingLabel where
  start := .initial buffer maxProcessingMs maxRetries window io
  step := Processing.step topicTable

/-- Has the dispatcher an event in its hands that was not counted? A failed attempt on BATCH was. -/
def uncounted : DispatcherPc → Nat
  | .idle => 0
  | .route _ => 1
  | .push _ queueId retryCount _ => if queueId = .batch ∧ 0 < retryCount then 0 else 1
  | .dlq _ => 0

/-- The counts of the bus and the events still to be counted are not more than were accepted. -/
structure CountedOnce (s : Pipeline) : Prop where
  inv : s.Inv
  policies : s.bus.Policies
  counts : ∃ processed dropped,
    s.bus.metrics.counts = (UInt64.ofNat processed, UInt64.ofNat dropped) ∧
    processed + dropped + (s.inbound.filterMap id).length + uncounted s.dispatcher ≤ s.nextTicket

namespace CountedOnce

variable {s t : Pipeline} {topicTable : Option TopicTable}

private theorem counted_initial (buffer : Fin realtimeCapacity.val → Item) :
    CountedOnce (.initial buffer) :=
  ⟨.of_reachable (.start : (pipeline none buffer).Reachable _), ⟨rfl, rfl⟩, 0, 0, rfl,
    Nat.le_refl _⟩

private theorem counted_tryPush (h : CountedOnce s) (evt : Option Event) :
    CountedOnce (s.tryPush evt) := by
  obtain ⟨processed, dropped, hcounts, hle⟩ := h.counts
  refine ⟨h.inv.step (show s.step none (.tryPush evt) = some _ from rfl), ?_, ?_⟩
  · unfold Pipeline.tryPush
    split
    · exact h.policies
    · cases evt <;> exact h.policies
  · unfold Pipeline.tryPush
    split
    · exact h.counts
    · cases evt with
      | none =>
        refine ⟨processed, dropped, hcounts, ?_⟩
        simpa [List.filterMap_append] using hle
      | some event =>
        refine ⟨processed, dropped, hcounts, ?_⟩
        simp only [List.filterMap_append, List.length_append]
        change _ + (_ + 1) + _ ≤ _ + 1
        omega

/-- An operation that does not count again finds its event uncounted. -/
private theorem uncounted_of_not_recounts {item : Item} {queueId : QueueId} {retryCount : Nat}
    {op : PushOp Item} (hg : Processing.recounts (.push item queueId retryCount op) = false) :
    (∀ old, op ≠ .dlqOld old) ∧ uncounted (.push item queueId retryCount op) = 1 := by
  cases op with
  | dlqOld old => cases hg
  | _ =>
    refine ⟨?_, if_neg (of_decide_eq_false hg)⟩
    intro old hop
    cases hop

/-- After a failed attempt on BATCH the event is counted, and after no attempt it is more than one
uncounted event. -/
private theorem uncounted_retry (item : Item) (queueId : QueueId) (retryCount : Nat) :
    uncounted (if retryCount + 1 < Dispatcher.maxRetries
      then .push item queueId (retryCount + 1) (.first queueId) else .dlq item) ≤ 1 ∧
    (queueId = .batch → uncounted (if retryCount + 1 < Dispatcher.maxRetries
      then .push item queueId (retryCount + 1) (.first queueId) else .dlq item) = 0) := by
  split
  · rw [uncounted]
    refine ⟨?_, fun hq ↦ if_pos ⟨hq, Nat.succ_pos _⟩⟩
    split
    · exact Nat.zero_le _
    · exact Nat.le_refl _
  · exact ⟨Nat.zero_le _, fun _ ↦ rfl⟩

private theorem counted_pushItem {item : Item} {queueId : QueueId} {retryCount : Nat}
    {timeout : Bool} {op : PushOp Item} (h : CountedOnce s)
    (hd : s.dispatcher = .push item queueId retryCount op)
    (hg : Processing.recounts s.dispatcher = false)
    (ht : s.pushItem item queueId retryCount timeout op = some t) :
    ∃ processed dropped,
      t.bus.metrics.counts = (UInt64.ofNat processed, UInt64.ofNat dropped) ∧
      processed + dropped + (t.inbound.filterMap id).length + uncounted t.dispatcher ≤
        t.nextTicket := by
  obtain ⟨processed, dropped, hcounts, hle⟩ := h.counts
  rw [hd] at hg hle
  obtain ⟨hold, hone⟩ := uncounted_of_not_recounts hg
  have hroom := h.inv.room item queueId retryCount op hd
  obtain ⟨hretry, hretryBatch⟩ := uncounted_retry item queueId retryCount
  obtain ⟨⟨bus, progress⟩, hbus, rfl⟩ := Option.map_eq_some_iff.mp ht
  obtain ⟨op', rfl, -, hsame⟩ | ⟨old, rfl, -⟩ | ⟨rfl, -, hmore⟩ | ⟨rfl, -⟩ | ⟨rfl, rfl, rfl, -⟩ |
    ⟨rfl, rfl, hmore, hpolicy, -⟩ := EventBusMulti.pushOp_counts hbus
  · exact ⟨processed, dropped, hsame.trans hcounts, hle⟩
  · exact absurd rfl (hold old)
  · refine ⟨processed + 1, dropped, hmore.trans (Metrics.counts_processed hcounts), ?_⟩
    change processed + 1 + dropped + (s.inbound.filterMap id).length + 0 ≤ s.nextTicket
    omega
  · exact hroom.elim
  · -- the wait expired: the event is as uncounted as before
    refine ⟨processed, dropped, hcounts, ?_⟩
    change _ + _ + (s.inbound.filterMap id).length + uncounted (if _ then _ else _) ≤ s.nextTicket
    omega
  · -- only BATCH drops what is new, and its next attempt finds the event counted
    have hbatch : queueId = .batch := by
      cases queueId with
      | batch => rfl
      | _ => exact absurd (h.policies.transactional.symm.trans hpolicy) (by decide)
    have hcounted := hretryBatch hbatch
    refine ⟨processed, dropped + 1, hmore.trans (Metrics.counts_dropped hcounts), ?_⟩
    change _ + _ + (s.inbound.filterMap id).length + uncounted (if _ then _ else _) ≤ s.nextTicket
    omega

private theorem counted_stepDispatcher {timeout : Bool} (h : CountedOnce s)
    (hg : Processing.recounts s.dispatcher = false)
    (ht : s.stepDispatcher topicTable timeout = some t) : CountedOnce t := by
  obtain ⟨processed, dropped, hcounts, hle⟩ := h.counts
  have hinv := h.inv.step (show s.step topicTable (.dispatcher timeout) = some t from ht)
  unfold Pipeline.stepDispatcher at ht
  split at ht
  · next hd =>
    cases ht
    rw [hd] at hle
    refine ⟨hinv, ?_, processed, dropped, ?_⟩
    · unfold Pipeline.popInbound
      split <;> exact h.policies
    · unfold Pipeline.popInbound
      split
      · rw [hd]
        exact ⟨hcounts, hle⟩
      · next inbound hin =>
        rw [hin] at hle
        rw [hd]
        exact ⟨hcounts, hle⟩
      · next item inbound hin =>
        rw [hin] at hle
        refine ⟨hcounts, ?_⟩
        change processed + dropped + ((inbound.filterMap id).length + 1) + 0 ≤ s.nextTicket at hle
        change processed + dropped + (inbound.filterMap id).length + 1 ≤ s.nextTicket
        omega
  · next item hd =>
    cases ht
    rw [hd] at hle
    refine ⟨hinv, h.policies, processed, dropped, hcounts, ?_⟩
    simp only [Pipeline.routeItem, uncounted]
    rw [if_neg fun h ↦ absurd h.2 (Nat.lt_irrefl 0)]
    exact hle
  · next item queueId retryCount op hd =>
    refine ⟨hinv, ?_, counted_pushItem h hd hg ht⟩
    obtain ⟨⟨bus, progress⟩, hbus, rfl⟩ := Option.map_eq_some_iff.mp ht
    exact h.policies.pushOp hbus
  · next item hd =>
    cases ht
    rw [hd] at hle
    exact ⟨hinv, ⟨h.policies.transactional, h.policies.batch⟩, processed, dropped, hcounts, hle⟩

private theorem counted_consume {queueId : QueueId} (h : CountedOnce s)
    (ht : s.consume queueId = some t) : CountedOnce t := by
  obtain ⟨processed, dropped, hcounts, hle⟩ := h.counts
  have hinv := h.inv.step (show s.step none (.consume queueId) = some t from ht)
  obtain ⟨⟨item, bus⟩, hpop, rfl⟩ := Option.map_eq_some_iff.mp ht
  obtain ⟨-, -, hmetrics⟩ := EventBusMulti.pop_frame hpop
  exact ⟨hinv, h.policies.pop hpop, processed, dropped,
    (congrArg Metrics.counts hmetrics).trans hcounts, hle⟩

end CountedOnce

/-- Only the bus has counted anything. -/
structure Processing.Once (s : Processing) : Prop where
  pipe : CountedOnce s.pipe
  realtime : s.realtime.metrics.counts = (0, 0)
  transactional : s.transactional.metrics.counts = (0, 0)
  batch : s.batch.metrics.counts = (0, 0)

namespace Processing

variable {s t : Processing} {topicTable : Option TopicTable}

/-- Flushing buckets counts nothing. -/
private theorem flushAll_metrics (p : BatchProcessor) (io : Sinks) (env : BatchEnv)
    (order : List Bytes) : (p.flushAll io env order).1.metrics = p.metrics := by
  induction order generalizing p with
  | nil => rfl
  | cons topic rest ih =>
    unfold BatchProcessor.flushAll
    split
    · rfl
    · exact ih _

private theorem take_eq_some {queueId : QueueId} {event : Event}
    (h : s.take queueId event = some t) :
    t = { s with hands := Function.update s.hands queueId none } := by
  unfold take at h
  split at h
  · cases h
  · split at h <;> cases h
    rfl

/-- A step that counts no event again keeps the counts below the number of events accepted. -/
theorem Once.step {l : ProcessingLabel} (h : s.Once) (hg : s.CountsOnce l)
    (ht : s.step topicTable l = some t) : t.Once := by
  cases l with
  | tryPush evt =>
    cases ht
    exact ⟨h.pipe.counted_tryPush evt, h.realtime, h.transactional, h.batch⟩
  | dispatcher timeout =>
    obtain ⟨pipe, hpipe, rfl⟩ := Option.map_eq_some_iff.mp ht
    exact ⟨h.pipe.counted_stepDispatcher hg hpipe, h.realtime, h.transactional, h.batch⟩
  | pop queueId =>
    simp only [Processing.step] at ht
    split at ht
    · obtain ⟨pipe, hpipe, rfl⟩ := Option.map_eq_some_iff.mp ht
      exact ⟨h.pipe.counted_consume hpipe, h.realtime, h.transactional, h.batch⟩
    · cases ht
  | realtime c => exact hg.elim
  | batch event now env => exact hg.elim
  | transactional c =>
    obtain ⟨r, htake, rfl⟩ := Option.map_eq_some_iff.mp ht
    cases take_eq_some htake
    have hsame : s.transactional.process s.io c = (s.transactional, s.io, .returned) := by
      obtain ⟨hpaused, hduplicate⟩ := Bool.and_eq_true_iff.mp hg
      rw [Bool.not_eq_true'] at hpaused
      rw [TransactionalProcessor.process, hpaused, if_neg (by decide), if_pos hduplicate]
    refine ⟨h.pipe, h.realtime, ?_, h.batch⟩
    change (s.transactional.process s.io c).1.metrics.counts = (0, 0)
    rw [hsame]
    exact h.transactional
  | pause paused =>
    cases ht
    exact ⟨h.pipe, h.realtime, h.transactional, h.batch⟩
  | dropBatchEvents dropEvents =>
    cases ht
    exact ⟨h.pipe, h.realtime, h.transactional, h.batch⟩
  | stop order env =>
    simp only [Processing.step] at ht
    split at ht <;> cases ht
    refine ⟨h.pipe, h.realtime, h.transactional, ?_⟩
    change (s.batch.flushAll s.io env order).1.metrics.counts = (0, 0)
    rw [flushAll_metrics]
    exact h.batch

end Processing

/-- In every run in which no event is counted again, because the ring gives none up, BATCH has
room at the first attempt and the processors are given nothing but transactional duplicates, the
published totals do not exceed the number of events accepted. -/
theorem totals_le_accepted (topicTable : Option TopicTable)
    (buffer : Fin realtimeCapacity.val → Item) (maxProcessingMs : Int) (maxRetries window : Nat)
    (io : Sinks) (s : Processing)
    (h : (processing topicTable buffer maxProcessingMs maxRetries window io).ReachableWith
      Processing.CountsOnce s) :
    s.metrics.totalEventsProcessed.toNat ≤ s.pipe.nextTicket ∧
    s.metrics.totalEventsProcessed.toNat + s.metrics.totalEventsDropped.toNat ≤
      s.pipe.nextTicket := by
  have honce : s.Once := by
    refine Machine.ReachableWith.invariant ?_ (fun _ _ _ hs hg ht ↦ hs.step hg ht) h
    exact ⟨CountedOnce.counted_initial buffer, rfl, rfl, rfl⟩
  obtain ⟨processed, dropped, hcounts, hle⟩ := honce.pipe.counts
  have hprocessed : s.metrics.totalEventsProcessed = UInt64.ofNat processed := by
    simp only [Processing.metrics, esccoreMetrics, List.map_cons, List.map_nil, List.foldl_cons,
      List.foldl_nil, (Prod.mk.inj hcounts).1, (Prod.mk.inj honce.realtime).1,
      (Prod.mk.inj honce.transactional).1, (Prod.mk.inj honce.batch).1, UInt64.zero_add,
      UInt64.add_zero]
  have hdropped : s.metrics.totalEventsDropped = UInt64.ofNat dropped := by
    simp only [Processing.metrics, esccoreMetrics, List.map_cons, List.map_nil, List.foldl_cons,
      List.foldl_nil, (Prod.mk.inj hcounts).2, (Prod.mk.inj honce.realtime).2,
      (Prod.mk.inj honce.transactional).2, (Prod.mk.inj honce.batch).2, UInt64.zero_add,
      UInt64.add_zero]
  have hmod : ∀ n, (UInt64.ofNat n).toNat ≤ n := fun n ↦ by
    rw [UInt64.toNat_ofNat']
    exact Nat.mod_le _ _
  rw [hprocessed, hdropped]
  have h₁ := hmod processed
  have h₂ := hmod dropped
  omega

/-- A CRITICAL event in the ring is counted once. -/
theorem totals_le_accepted_pushed :
    let m := processing none (fun _ ↦ ⟨0, ⟨⟨.tcp, .batch, 0, 0, 0, 0, 0⟩, [], [], [], 0⟩⟩) 5 3 60
      ⟨none, none, []⟩
    ∃ s, m.ReachableWith Processing.CountsOnce s ∧ s.pipe.nextTicket = 1 ∧
      s.metrics.totalEventsProcessed = 1 ∧
      s.metrics.totalEventsProcessed.toNat + s.metrics.totalEventsDropped.toNat ≤ 1 := by
  intro m
  have hrun : (m.runWith Processing.CountsOnce m.start
      [.tryPush (some ⟨⟨.tcp, .critical, 1, 0, 0, 0, 0⟩, [97], [], [], 0⟩), .dispatcher false,
        .dispatcher false, .dispatcher false, .dispatcher false, .pop .realtime]).map
      (fun s ↦ (s.pipe.nextTicket, s.metrics.totalEventsProcessed)) = some (1, 1) := by
    decide +kernel
  obtain ⟨s, hrun, hs⟩ := Option.map_eq_some_iff.mp hrun
  simp only [Prod.mk.injEq] at hs
  have hreach := Machine.ReachableWith.run .start hrun
  refine ⟨s, hreach, hs.1, hs.2, ?_⟩
  have hle := (totals_le_accepted _ _ _ _ _ _ s hreach).2
  rwa [hs.1] at hle

/-- The same event, once it is processed, is counted twice. -/
theorem processed_event_counted_twice :
    let m := processing none (fun _ ↦ ⟨0, ⟨⟨.tcp, .batch, 0, 0, 0, 0, 0⟩, [], [], [], 0⟩⟩) 5 3 60
      ⟨none, none, []⟩
    ∃ s, m.Reachable s ∧ s.pipe.nextTicket = 1 ∧ s.metrics.totalEventsProcessed = 2 ∧
      s.metrics.totalEventsDropped = 0 := by
  intro m
  have hrun : (m.run m.start
      [.tryPush (some ⟨⟨.tcp, .critical, 1, 0, 0, 0, 0⟩, [97], [], [], 0⟩), .dispatcher false,
        .dispatcher false, .dispatcher false, .dispatcher false, .pop .realtime,
        .realtime ⟨⟨⟨.tcp, .critical, 1, 0, 0, 0, 0⟩, [97], [], [], 7⟩, [], 1, 1, 1, 0, false⟩]).map
      (fun s ↦ (s.pipe.nextTicket, s.metrics.totalEventsProcessed, s.metrics.totalEventsDropped)) =
        some (1, 2, 0) := by
    decide +kernel
  obtain ⟨s, hrun, hs⟩ := Option.map_eq_some_iff.mp hrun
  simp only [Prod.mk.injEq] at hs
  exact ⟨s, Machine.Reachable.run .start hrun, hs⟩

end EventStreamCore.Bridge
