import EventStreamCore.Processor.Batch

/-!
# One verdict for each event

The three processors, `src/core/processor/realtime.cpp:44–108`,
`src/core/processor/transactional.cpp:23–107` and `src/core/processor/batch.cpp:23–127`, called
one after another in any order. What a call adds to the counters of its processor, to the dead
letter queue and to the notifications is booked under the number of the call; a flush works for
the events of earlier calls and is booked under theirs. Beside the books, the fate of each event
is followed as its inputs decide it.
-/

namespace EventStreamCore.Processor
open EventStreamCore.Lib EventStreamCore.Events EventStreamCore.Storage

/-- What is booked for an event besides the counters. -/
inductive Mark where
  | pushed | notedProcessed | notedDropped
deriving DecidableEq, Repr

/-- The mark of a notification. -/
def Notification.mark : Notification → Mark
  | .processed _ _ => .notedProcessed
  | .dropped _ _ _ => .notedDropped

/-- The mark a call of the batch processor leaves, and for which event. -/
def BatchCall.mark : BatchCall → Option (Mark × Nat)
  | .push a => some (.pushed, a.ticket)
  | .notifyProcessed a => some (.notedProcessed, a.ticket)
  | .notifyDropped a _ => some (.notedDropped, a.ticket)
  | .handle _ => none
  | .storeEvent _ => none
  | .dropBatchFromQueue => none

/-- What becomes of an event: it leaves no trace as a duplicate, waits in a bucket, is processed or
given up, or is given up after it was counted, because it took too long or because its handler
refused it when the bucket was flushed. -/
inductive Fate where
  | silent | waiting | processed | dropped | late | refused
deriving DecidableEq, Repr

namespace Fate

/-- How often an event of this fate is counted as processed and as dropped. -/
def counts : Fate → UInt64 × UInt64
  | .silent => (0, 0)
  | .waiting | .processed | .refused => (1, 0)
  | .dropped => (0, 1)
  | .late => (1, 1)

/-- How often an event of this fate has a mark. -/
def marks : Fate → Mark → Nat
  | .silent, _ | .waiting, _ => 0
  | .processed, .notedProcessed => 1
  | .processed, _ => 0
  | .dropped, .notedProcessed | .late, .notedProcessed | .refused, .notedProcessed => 0
  | .dropped, _ | .late, _ | .refused, _ => 1

end Fate

/-- The fate of an event given to `RealtimeProcessor::process`. -/
def RealtimeProcessor.fate (p : RealtimeProcessor) (c : ProcessCall) : Fate :=
  if p.stores c then .processed else if c.accepted then .late else .dropped

/-- The fate of an event given to `TransactionalProcessor::process`. -/
def TransactionalProcessor.fate (p : TransactionalProcessor) (c : ProcessCall) : Fate :=
  if p.discards c then .silent else if p.stores c then .processed else .dropped

/-- The fates of events whose bucket is flushed, from the `i`-th on. -/
def flushFates (handler : EventHandler) : Nat → List Arrival → (Nat → Fate) → Nat → Fate
  | _, [], fates => fates
  | i, a :: rest, fates =>
    flushFates handler (i + 1) rest (Function.update fates a.ticket
      (if (handler.handle a.event i).outcome.accepts then .processed else .refused))

namespace BatchProcessor

/-- Does an event that is taken into its bucket come when the bucket is to be flushed? -/
def due (p : BatchProcessor) (a : Arrival) : Bool :=
  (p.buckets a.event.topic).lastFlushTime ≠ 0 ∧
    a.arrivedAt ≥ (p.buckets a.event.topic).lastFlushTime + p.windowNs

/-- The fates after `process`. -/
def fates (p : BatchProcessor) (env : BatchEnv) (a : Arrival) (fates : Nat → Fate) : Nat → Fate :=
  if p.accepts env a.event then
    let fates := Function.update fates a.ticket .waiting
    if p.due a then
      flushFates (EventHandlerRegistry.getOrDefault env.handlers a.event.topic) 1
        ((p.buckets a.event.topic).events ++ [a]) fates
    else fates
  else Function.update fates a.ticket .dropped

/-- The fates after `stop`. -/
def stopFates (env : BatchEnv) : BatchProcessor → List Bytes → (Nat → Fate) → Nat → Fate
  | _, [], fates => fates
  | p, topic :: rest, fates =>
    stopFates env (p.putBucket topic { p.buckets topic with events := [] }) rest
      (flushFates (EventHandlerRegistry.getOrDefault env.handlers topic) 1
        (p.buckets topic).events fates)

end BatchProcessor

/-- The processors, what they write to, how many events they were given, and the books. -/
structure Ledger where
  realtime : RealtimeProcessor
  transactional : TransactionalProcessor
  batch : BatchProcessor
  io : Sinks
  arrivals : Nat
  counts : Nat → UInt64 × UInt64
  marks : List (Mark × Nat)
  fates : Nat → Fate

/-- What is called next. -/
inductive LedgerLabel where
  | realtime (c : ProcessCall)
  | transactional (c : ProcessCall)
  | batch (event : Event) (now : Nat) (env : BatchEnv)
  | stop (order : List Bytes) (env : BatchEnv)
  | pause (paused : Bool)
  | dropBatchEvents (dropEvents : Bool)

/-- The difference of two counters. -/
def countsSince (m' m : Metrics) : UInt64 × UInt64 :=
  (m'.totalEventsProcessed - m.totalEventsProcessed, m'.totalEventsDropped - m.totalEventsDropped)

/-- The pushes to the dead letter queue so far. -/
def Sinks.totalDropped (io : Sinks) : UInt64 := (io.dlq.map DeadLetterQueue.totalDropped).getD 0

/-- What a call for the `k`-th event has added to the dead letter queue and the notifications. -/
def Sinks.since (io' io : Sinks) (k : Nat) : List (Mark × Nat) :=
  List.replicate (io'.totalDropped - io.totalDropped).toNat (.pushed, k) ++
    (io'.notifications.drop io.notifications.length).map fun n ↦ (n.mark, k)

namespace Ledger

/-- A call of `RealtimeProcessor::process`. -/
def callRealtime (s : Ledger) (c : ProcessCall) : Ledger :=
  let (realtime, io, _) := s.realtime.process s.io c
  { s with
    realtime, io
    arrivals := s.arrivals + 1
    counts := Function.update s.counts s.arrivals (countsSince realtime.metrics s.realtime.metrics)
    marks := s.marks ++ io.since s.io s.arrivals
    fates := Function.update s.fates s.arrivals (s.realtime.fate c) }

/-- A call of `TransactionalProcessor::process`. -/
def callTransactional (s : Ledger) (c : ProcessCall) : Ledger :=
  let (transactional, io, _) := s.transactional.process s.io c
  { s with
    transactional, io
    arrivals := s.arrivals + 1
    counts := Function.update s.counts s.arrivals
      (countsSince transactional.metrics s.transactional.metrics)
    marks := s.marks ++ io.since s.io s.arrivals
    fates := Function.update s.fates s.arrivals (s.transactional.fate c) }

/-- A call of `BatchProcessor::process`. -/
def callBatch (s : Ledger) (event : Event) (now : Nat) (env : BatchEnv) : Ledger :=
  let a : Arrival := ⟨s.arrivals, now, event⟩
  let (batch, calls, _) := s.batch.process s.io env a
  { s with
    batch
    io := calls.foldl BatchCall.apply s.io
    arrivals := s.arrivals + 1
    counts := Function.update s.counts s.arrivals (countsSince batch.metrics s.batch.metrics)
    marks := s.marks ++ calls.filterMap BatchCall.mark
    fates := s.batch.fates env a s.fates }

/-- A call of `BatchProcessor::stop`. -/
def callStop (s : Ledger) (order : List Bytes) (env : BatchEnv) : Ledger :=
  let (batch, calls, _) := s.batch.flushAll s.io env order
  { s with
    batch
    io := calls.foldl BatchCall.apply s.io
    marks := s.marks ++ calls.filterMap BatchCall.mark
    fates := s.batch.stopFates env order s.fates }

/-- One call. -/
def step (s : Ledger) : LedgerLabel → Option Ledger
  | .realtime c => some (s.callRealtime c)
  | .transactional c => some (s.callTransactional c)
  | .batch event now env => some (s.callBatch event now env)
  | .stop order env =>
    if order.isPerm s.batch.topics then some (s.callStop order env) else none
  | .pause paused => some { s with transactional := { s.transactional with paused } }
  | .dropBatchEvents dropEvents => some { s with batch := { s.batch with dropEvents } }

/-- Nothing throws. -/
def Quiet (_ : Ledger) : LedgerLabel → Prop
  | .realtime c => c.storeFails = false
  | .transactional c => c.storeFails = false
  | .batch _ _ env => env.Quiet
  | .stop _ env => env.Quiet
  | .pause _ => True
  | .dropBatchEvents _ => True

/-- How often the `k`-th event has a mark. -/
def marked (s : Ledger) (m : Mark) (k : Nat) : Nat := s.marks.count (m, k)

/-- The counters, the dead letter queue and the notifications agree on the `k`-th event. -/
def OneVerdict (s : Ledger) (k : Nat) : Prop :=
  (0 < s.marked .notedProcessed k → s.counts k = (1, 0)) ∧
  (0 < s.marked .notedDropped k → s.counts k = (0, 1) ∧ s.marked .pushed k = 1) ∧
  (s.fates k ≠ .silent → s.marked .notedProcessed k + s.marked .notedDropped k = 1)

end Ledger

/-- All sequences of calls on new processors with a dead letter queue. -/
def ledger (maxProcessingMs : Int) (maxRetries window : Nat) (eventBus : Bool)
    (storage : Option StorageEngine) : Machine Ledger LedgerLabel where
  start :=
    { realtime := ⟨maxProcessingMs, .initial, []⟩
      transactional := ⟨false, maxRetries, .initial, 0, .initial, .initial⟩
      batch := .initial window eventBus
      io := ⟨storage, some .initial, []⟩
      arrivals := 0
      counts := fun _ ↦ (0, 0)
      marks := []
      fates := fun _ ↦ .silent }
  step := Ledger.step

/-! ### What one call books -/

/-- Marks of the `k`-th event only, as its fate says. -/
def BooksOf (marks : List (Mark × Nat)) (k : Nat) (fate : Fate) : Prop :=
  ∀ m j, marks.count (m, j) = if j = k then fate.marks m else 0

namespace BooksOf

variable {k : Nat}

theorem nil {fate : Fate} (h : fate = .silent ∨ fate = .waiting) : BooksOf [] k fate := by
  intro m j
  obtain rfl | rfl := h
  · simp [Fate.marks]
  · simp [Fate.marks]

/-- Marks of one event, counted. -/
private theorem count_marks (marks : List Mark) (m : Mark) (j : Nat) :
    (marks.map fun m ↦ (m, k)).count (m, j) = if j = k then marks.count m else 0 := by
  induction marks with
  | nil => simp
  | cons n marks ih =>
    rw [List.map_cons, List.count_cons, ih, List.count_cons]
    by_cases h : j = k
    · simp [h]
    · simp [h, Ne.symm h]

/-- An event that was reported as processed. -/
theorem notedProcessed : BooksOf [(.notedProcessed, k)] k .processed := by
  intro m j
  refine (count_marks [.notedProcessed] m j).trans ?_
  cases m <;> rfl

/-- An event that was given up. -/
theorem notedDropped {fate : Fate} (h : fate = .dropped ∨ fate = .late ∨ fate = .refused) :
    BooksOf [(.pushed, k), (.notedDropped, k)] k fate := by
  intro m j
  refine (count_marks [.pushed, .notedDropped] m j).trans ?_
  obtain rfl | rfl | rfl := h <;> cases m <;> rfl

end BooksOf

namespace Sinks

variable {io io' : Sinks}

/-- What giving an event up books. -/
theorem since_drop (hdlq : io.dlq.isSome) (event : Event) (processor : ProcessorName)
    (reason : String) (k : Nat) :
    ((io.push event).notifyDropped event processor reason).since io k =
      [(.pushed, k), (.notedDropped, k)] := by
  obtain ⟨dlq, hdlq⟩ := Option.isSome_iff_exists.mp hdlq
  have hone : dlq.totalDropped + 1 - dlq.totalDropped = 1 := by
    rw [UInt64.add_comm, UInt64.add_sub_cancel]
  simp [since, totalDropped, push, notifyDropped, hdlq, DeadLetterQueue.push, hone,
    Notification.mark]

/-- What reporting an event as processed books. -/
theorem since_processed (hdlq : io'.dlq = io.dlq) (hnotes : io'.notifications = io.notifications)
    (event : Event) (processor : ProcessorName) (k : Nat) :
    (io'.notifyProcessed event processor).since io k = [(.notedProcessed, k)] := by
  simp [since, totalDropped, notifyProcessed, hdlq, hnotes, Notification.mark]

/-- A call that leaves no trace. -/
theorem since_self (io : Sinks) (k : Nat) : io.since io k = [] := by
  simp [since]

/-- A write that does not fail changes the storage only. -/
theorem storeEvent_quiet (io : Sinks) (event : Event) :
    ∃ io', io.storeEvent event false = some io' ∧ io'.dlq = io.dlq ∧
      io'.notifications = io.notifications := by
  unfold storeEvent
  cases io.storage with
  | none => exact ⟨io, rfl, rfl, rfl⟩
  | some storage => exact ⟨_, rfl, rfl, rfl⟩

end Sinks

/-- What a quiet call books for its event. -/
structure Books (fate : Fate) (m m' : Metrics) (io io' : Sinks) : Prop where
  counts : countsSince m' m = fate.counts
  marks : ∀ k, BooksOf (io'.since io k) k fate
  dlq : io'.dlq.isSome

private theorem add_one_sub_self (x : UInt64) : x + 1 - x = 1 := by
  rw [UInt64.add_comm, UInt64.add_sub_cancel]

theorem countsSince_dropped (m : Metrics) : countsSince (m.dropped 1) m = (0, 1) :=
  Prod.ext (UInt64.sub_self _) (add_one_sub_self _)

theorem countsSince_processed (m : Metrics) : countsSince m.processed m = (1, 0) :=
  Prod.ext (add_one_sub_self _) (UInt64.sub_self _)

private theorem countsSince_both (m : Metrics) :
    countsSince (m.processed.dropped 1) m = (1, 1) :=
  Prod.ext (add_one_sub_self _) (add_one_sub_self _)

theorem Books.drop {m m' : Metrics} {io : Sinks} (hdlq : io.dlq.isSome) {fate : Fate}
    (hfate : fate = .dropped ∨ fate = .late) (hcounts : countsSince m' m = fate.counts)
    (event : Event) (processor : ProcessorName) (reason : String) :
    Books fate m m' io ((io.push event).notifyDropped event processor reason) := by
  refine ⟨hcounts, fun k ↦ ?_, ?_⟩
  · rw [Sinks.since_drop hdlq]
    exact BooksOf.notedDropped (hfate.imp_right .inl)
  · simpa [Sinks.push, Sinks.notifyDropped] using hdlq

theorem Books.processed {m m' : Metrics} {io io' : Sinks} (hdlq : io.dlq.isSome)
    (hsame : io'.dlq = io.dlq) (hnotes : io'.notifications = io.notifications)
    (hcounts : countsSince m' m = (1, 0)) (event : Event) (processor : ProcessorName) :
    Books .processed m m' io (io'.notifyProcessed event processor) := by
  refine ⟨hcounts, fun k ↦ ?_, ?_⟩
  · rw [Sinks.since_processed hsame hnotes]
    exact BooksOf.notedProcessed
  · rw [← hsame] at hdlq
    exact hdlq

/-- A realtime event is booked as its fate says. -/
theorem RealtimeProcessor.process_books (p : RealtimeProcessor) {io : Sinks} {c : ProcessCall}
    (hdlq : io.dlq.isSome) (hquiet : c.storeFails = false) :
    Books (p.fate c) p.metrics (p.process io c).1.metrics io (p.process io c).2.1 := by
  unfold fate
  rw [stores_eq]
  obtain ⟨haccepted, reason, hp⟩ | ⟨haccepted, alerts, hp⟩ := p.process_checks io c
  · rw [hp, haccepted]
    exact .drop hdlq (.inl rfl) (countsSince_dropped _) _ _ _
  · rw [hp, haccepted, finish]
    by_cases hlate : c.elapsedMs > p.maxProcessingMs
    · rw [if_pos hlate, decide_eq_false (Int.not_le.mpr hlate)]
      exact .drop hdlq (.inr rfl) (countsSince_both _) _ _ _
    · obtain ⟨io', hstore, hsame, hnotes⟩ := io.storeEvent_quiet c.event
      rw [if_neg hlate, decide_eq_true (Int.not_lt.mp hlate), hquiet, hstore]
      exact .processed hdlq hsame hnotes (countsSince_processed _) _ _

/-- A transactional event is booked as its fate says. -/
theorem TransactionalProcessor.process_books (p : TransactionalProcessor) {io : Sinks}
    {c : ProcessCall} (hdlq : io.dlq.isSome) (hquiet : c.storeFails = false) :
    Books (p.fate c) p.metrics (p.process io c).1.metrics io (p.process io c).2.1 := by
  have hmetrics := (p.maybeCleanup_frame c.nowMs).2.1
  unfold fate
  obtain ⟨hdiscards, -, hp⟩ | ⟨hnew, hstores, reason, hp⟩ | ⟨hnew, hstores, hp⟩ :=
    p.process_checks io c
  · rw [hp, hdiscards]
    refine ⟨Prod.ext (UInt64.sub_self _) (UInt64.sub_self _), fun k ↦ ?_, hdlq⟩
    rw [Sinks.since_self]
    exact BooksOf.nil (.inl rfl)
  · rw [hnew, hstores]
    obtain hp | hp := hp
    · rw [hp]
      exact .drop hdlq (.inl rfl) (countsSince_dropped _) _ _ _
    · rw [hp]
      refine .drop hdlq (.inl rfl) ?_ _ _ _
      rw [drop, hmetrics]
      exact countsSince_dropped _
  · obtain ⟨io', hstore, hsame, hnotes⟩ := io.storeEvent_quiet c.event
    rw [hp, hnew, hstores, commit, hquiet, hstore, hmetrics]
    refine .processed hdlq hsame hnotes ?_ _ _
    dsimp only
    split <;> exact countsSince_processed _

end EventStreamCore.Processor
