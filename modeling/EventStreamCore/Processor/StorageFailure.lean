import EventStreamCore.Lib.Machine
import EventStreamCore.Processor.Processors

/-!
# What a storage failure does to an event

Sequences of `process` calls on the realtime and the transactional processor of one
`ProcessManager`, which share a storage engine and a dead letter queue, with `pauseProcessing`
and `resumeProcessing` in between. An exception ends its call and no other:
`ProcessManager::runLoop`, `src/core/processor/manager.cpp:60–72`, catches it and goes on.
-/

namespace EventStreamCore.Processor
open EventStreamCore.Lib EventStreamCore.Events EventStreamCore.Queues EventStreamCore.Storage

namespace Sinks

/-- Is an event's record in the storage log? -/
def Logged (io : Sinks) (event : Event) : Prop :=
  ∃ storage, io.storage = some storage ∧ serialize event ∈ storage.storageFile

/-- Is an event in the dead letter queue? -/
def DeadLettered (io : Sinks) (event : Event) : Prop :=
  ∃ dlq, io.dlq = some dlq ∧ event ∈ dlq.storedEvents

/-- Are both a storage engine and a dead letter queue configured? -/
def Configured (io : Sinks) : Prop := io.storage.isSome ∧ io.dlq.isSome

variable {io io' : Sinks} {event : Event} {fails : Bool}

/-- An event pushed to a configured dead letter queue is in its window. -/
theorem deadLettered_push (h : io.Configured) (event : Event) :
    (io.push event).DeadLettered event := by
  obtain ⟨dlq, hdlq⟩ := Option.isSome_iff_exists.mp h.2
  refine ⟨dlq.push event, ?_, ?_⟩
  · rw [push, hdlq]
    rfl
  · exact List.mem_append_right _ (List.mem_singleton_self event)

/-- A push keeps both sinks configured. -/
theorem Configured.push (h : io.Configured) (event : Event) : (io.push event).Configured := by
  refine ⟨h.1, ?_⟩
  rw [Sinks.push, Option.isSome_map]
  exact h.2

/-- A configured storage throws exactly when the disk fails. -/
theorem storeEvent_eq_none_iff (h : io.Configured) :
    io.storeEvent event fails = none ↔ fails = true := by
  obtain ⟨storage, hs⟩ := Option.isSome_iff_exists.mp h.1
  cases fails <;> simp [storeEvent, hs, StorageEngine.storeEvent]

/-- A write that does not throw met no failure of the disk. -/
theorem not_fails_of_storeEvent (h : io.Configured)
    (hs : io.storeEvent event fails = some io') : fails ≠ true := by
  intro hfails
  rw [(storeEvent_eq_none_iff h).mpr hfails] at hs
  cases hs

/-- A write that does not throw adds the event's record to the log and changes nothing else. -/
theorem storeEvent_eq_some (h : io.Configured) (hs : io.storeEvent event fails = some io') :
    io'.Configured ∧ io'.Logged event ∧ ∀ other, io.Logged other → io'.Logged other := by
  obtain ⟨storage, hstorage⟩ := Option.isSome_iff_exists.mp h.1
  rw [storeEvent, hstorage] at hs
  obtain ⟨storage', hs', rfl⟩ := Option.map_eq_some_iff.mp hs
  have hfile := (StorageEngine.storeEvent_storageFile hs').2
  refine ⟨⟨rfl, h.2⟩, ⟨storage', rfl, ?_⟩, ?_⟩
  · rw [hfile]
    exact List.mem_append_right _ (List.mem_singleton_self _)
  · rintro other ⟨old, hold, hmem⟩
    obtain rfl := Option.some.inj (hstorage.symm.trans hold)
    refine ⟨storage', rfl, ?_⟩
    rw [hfile]
    exact List.mem_append_left _ hmem

end Sinks

/-- The two processors and what they share. -/
structure Processors where
  realtime : RealtimeProcessor
  transactional : TransactionalProcessor
  io : Sinks

/-- What is called next. -/
inductive ProcessorLabel where
  | realtime (c : ProcessCall)
  | transactional (c : ProcessCall)
  | pauseProcessing
  | resumeProcessing

namespace Processors

/-- New processors on a new storage file and an empty dead letter queue. -/
def initial (maxProcessingMs : Int) (maxRetries : Nat) : Processors where
  realtime := ⟨maxProcessingMs, .initial, []⟩
  transactional := ⟨false, maxRetries, .initial, 0, .initial, .initial⟩
  io := ⟨some .initial, some .initial, []⟩

/-- One call, with how it ends. -/
def call (s : Processors) : ProcessorLabel → Processors × Outcome
  | .realtime c =>
    let (realtime, io, outcome) := s.realtime.process s.io c
    ({ s with realtime, io }, outcome)
  | .transactional c =>
    let (transactional, io, outcome) := s.transactional.process s.io c
    ({ s with transactional, io }, outcome)
  | .pauseProcessing => ({ s with transactional := s.transactional.pauseProcessing }, .returned)
  | .resumeProcessing => ({ s with transactional := s.transactional.resumeProcessing }, .returned)

/-- What is asked of a call of `RealtimeProcessor::process` that takes `s` to `t`: the event is
in the log or in the dead letter queue, and if the call threw, the event is not counted. -/
def RealtimeKeeps (s t : Processors) (outcome : Outcome) (event : Event) : Prop :=
  (t.io.Logged event ∨ t.io.DeadLettered event) ∧
  (outcome = .threw →
    t.realtime.metrics.totalEventsProcessed = s.realtime.metrics.totalEventsProcessed)

/-- What is asked of a call of `TransactionalProcessor::process` that takes `s` to `t`: the
event is in the log or in the dead letter queue, or it was discarded as a duplicate of an event
in the log; and if the call threw, the event is not counted and its id is not in the
deduplication table. -/
def TransactionalKeeps (s t : Processors) (outcome : Outcome) (event : Event) : Prop :=
  (t.io.Logged event ∨ t.io.DeadLettered event ∨
    (s.transactional.paused = false ∧
      s.transactional.dedupTable.isDuplicate event.header.id = true) ∧
      ∃ other : Event, other.header.id = event.header.id ∧ t.io.Logged other) ∧
  (outcome = .threw →
    t.transactional.metrics.totalEventsProcessed = s.transactional.metrics.totalEventsProcessed ∧
    t.transactional.dedupTable.isDuplicate event.header.id = false)

/-- No call makes its event vanish. -/
def KeepsEvent (s : Processors) (l : ProcessorLabel) : Prop :=
  match l with
  | .realtime c => s.RealtimeKeeps (s.call l).1 (s.call l).2 c.event
  | .transactional c => s.TransactionalKeeps (s.call l).1 (s.call l).2 c.event
  | .pauseProcessing => True
  | .resumeProcessing => True

/-- The disk fails the write of an event that has passed every check before it. -/
def WriteFails (s : Processors) : ProcessorLabel → Prop
  | .realtime c => s.realtime.stores c = true ∧ c.storeFails = true
  | .transactional c => s.transactional.stores c = true ∧ c.storeFails = true
  | .pauseProcessing => False
  | .resumeProcessing => False

end Processors

/-- All sequences of calls. -/
def processors (maxProcessingMs : Int) (maxRetries : Nat) : Machine Processors ProcessorLabel where
  start := Processors.initial maxProcessingMs maxRetries
  step s l := some (s.call l).1

namespace Processors

/-- Both sinks are configured, and every id in the deduplication table is that of an event in
the log. -/
structure Inv (s : Processors) : Prop where
  configured : s.io.Configured
  logged : ∀ id, s.transactional.dedupTable.isDuplicate id →
    ∃ event : Event, event.header.id = id ∧ s.io.Logged event

variable {s : Processors}

private theorem inv_processors_initial (maxProcessingMs : Int) (maxRetries : Nat) :
    (initial maxProcessingMs maxRetries).Inv where
  configured := ⟨rfl, rfl⟩
  logged id h := by
    rw [show (initial maxProcessingMs maxRetries).transactional.dedupTable.isDuplicate id = false
      from LockFreeDeduplicator.isDuplicate_initial id] at h
    cases h

/-- A counter that was increased has changed. -/
private theorem add_one_ne (n : UInt64) : n + 1 ≠ n := by
  simp

private theorem call_realtime {c : ProcessCall} {p : RealtimeProcessor} {io : Sinks}
    {outcome : Outcome} (h : s.realtime.process s.io c = (p, io, outcome)) :
    s.call (.realtime c) = ({ s with realtime := p, io := io }, outcome) := by
  rw [call, h]

private theorem call_transactional {c : ProcessCall} {p : TransactionalProcessor} {io : Sinks}
    {outcome : Outcome} (h : s.transactional.process s.io c = (p, io, outcome)) :
    s.call (.transactional c) = ({ s with transactional := p, io := io }, outcome) := by
  rw [call, h]

/-- A realtime call keeps its event exactly when no write fails, and then keeps the invariant. -/
private theorem realtime_call (h : s.Inv) (c : ProcessCall) :
    (s.KeepsEvent (.realtime c) ↔ ¬s.WriteFails (.realtime c)) ∧
    (¬s.WriteFails (.realtime c) → (s.call (.realtime c)).1.Inv) := by
  unfold KeepsEvent WriteFails RealtimeKeeps
  obtain ⟨hstores, p, reason, hp⟩ | ⟨hstores, hnone, p, hp, hcount⟩ |
    ⟨hstores, io, p, hsome, hp⟩ := s.realtime.process_cases s.io c
  · simp only [call_realtime hp, hstores]
    have hdead := Sinks.deadLettered_push h.configured c.event
    refine ⟨⟨nofun, fun _ ↦ ⟨.inr hdead, nofun⟩⟩, fun _ ↦ ⟨?_, h.logged⟩⟩
    exact h.configured.push c.event
  · have hfails := (Sinks.storeEvent_eq_none_iff h.configured).mp hnone
    simp only [call_realtime hp, hstores, hfails]
    refine ⟨⟨fun hkeeps ↦ ?_, fun hw ↦ absurd ⟨trivial, trivial⟩ hw⟩,
      fun hw ↦ absurd ⟨trivial, trivial⟩ hw⟩
    exact absurd (hcount.symm.trans (hkeeps.2 trivial)) (add_one_ne _)
  · have hok := Sinks.not_fails_of_storeEvent h.configured hsome
    obtain ⟨hconf, hlogged, hkept⟩ := Sinks.storeEvent_eq_some h.configured hsome
    simp only [call_realtime hp]
    refine ⟨⟨fun _ hw ↦ hok hw.2, fun _ ↦ ⟨.inl hlogged, nofun⟩⟩, fun _ ↦ ⟨hconf, ?_⟩⟩
    intro id hid
    obtain ⟨event, he, hevent⟩ := h.logged id hid
    exact ⟨event, he, hkept event hevent⟩

/-- A transactional call keeps its event exactly when no write fails, and then keeps the
invariant. -/
private theorem transactional_call (h : s.Inv) (c : ProcessCall) :
    (s.KeepsEvent (.transactional c) ↔ ¬s.WriteFails (.transactional c)) ∧
    (¬s.WriteFails (.transactional c) → (s.call (.transactional c)).1.Inv) := by
  unfold KeepsEvent WriteFails TransactionalKeeps
  obtain ⟨hdiscards, hstores, hp⟩ | ⟨hstores, p, reason, hids, hp⟩ |
    ⟨hstores, p, hcount, htable, hids, ⟨hnone, hp⟩ | ⟨io, hsome, hp⟩⟩ :=
    s.transactional.process_cases s.io c
  · simp only [call_transactional hp, hstores]
    rw [TransactionalProcessor.discards, Bool.and_eq_true, Bool.not_eq_true'] at hdiscards
    have hother := h.logged _ hdiscards.2
    refine ⟨⟨?_, fun _ ↦ ⟨.inr (.inr ⟨hdiscards, hother⟩), ?_⟩⟩, fun _ ↦ h⟩
    · simp
    · simp
  · simp only [call_transactional hp, hstores]
    have hdead := Sinks.deadLettered_push h.configured c.event
    refine ⟨⟨?_, fun _ ↦ ⟨.inr (.inl hdead), ?_⟩⟩, fun _ ↦ ⟨?_, ?_⟩⟩
    · simp
    · simp
    · exact h.configured.push c.event
    · exact fun id hid ↦ h.logged id (hids id hid)
  · have hfails := (Sinks.storeEvent_eq_none_iff h.configured).mp hnone
    simp only [call_transactional hp, hstores, hfails]
    refine ⟨⟨fun hkeeps ↦ ?_, fun hw ↦ absurd ⟨trivial, trivial⟩ hw⟩,
      fun hw ↦ absurd ⟨trivial, trivial⟩ hw⟩
    exact absurd (hcount.symm.trans (hkeeps.2 trivial).1) (add_one_ne _)
  · have hok := Sinks.not_fails_of_storeEvent h.configured hsome
    obtain ⟨hconf, hlogged, hkept⟩ := Sinks.storeEvent_eq_some h.configured hsome
    simp only [call_transactional hp]
    refine ⟨⟨fun _ hw ↦ hok hw.2, fun _ ↦ ⟨.inl hlogged, ?_⟩⟩, fun _ ↦ ⟨hconf, ?_⟩⟩
    · simp
    intro id hid
    -- the id just inserted is that of the record just written
    obtain rfl | hold := hids id hid
    · exact ⟨c.event, rfl, hlogged⟩
    · obtain ⟨event, he, hevent⟩ := h.logged id hold
      exact ⟨event, he, hkept event hevent⟩

/-- One call, whatever it is. -/
private theorem keepsEvent_iff (h : s.Inv) (l : ProcessorLabel) :
    (s.KeepsEvent l ↔ ¬s.WriteFails l) ∧ (¬s.WriteFails l → (s.call l).1.Inv) := by
  cases l with
  | realtime c => exact realtime_call h c
  | transactional c => exact transactional_call h c
  | pauseProcessing => exact ⟨⟨fun _ ↦ id, fun _ ↦ trivial⟩, fun _ ↦ ⟨h.configured, h.logged⟩⟩
  | resumeProcessing => exact ⟨⟨fun _ ↦ id, fun _ ↦ trivial⟩, fun _ ↦ ⟨h.configured, h.logged⟩⟩

end Processors

/-- In a sequence of calls no event vanishes exactly when no event that passes the checks meets
a failing write. -/
theorem keepsEvent_along_iff (maxProcessingMs : Int) (maxRetries : Nat)
    (ls : List ProcessorLabel) :
    (processors maxProcessingMs maxRetries).Along Processors.KeepsEvent
      (processors maxProcessingMs maxRetries).start ls ↔
    (processors maxProcessingMs maxRetries).Along (fun s l ↦ ¬s.WriteFails l)
      (processors maxProcessingMs maxRetries).start ls := by
  apply Machine.along_congr (I := Processors.Inv)
  · exact fun s l h ↦ (Processors.keepsEvent_iff h l).1
  · intro s l t h hw ht
    cases ht
    exact (Processors.keepsEvent_iff h l).2 hw
  · exact Processors.inv_processors_initial maxProcessingMs maxRetries

/-- A failing write loses the event: the call throws with the event counted as processed and
its id in the deduplication table, nothing is in the log or in the dead letter queue, and the
redelivery of the event is discarded although the disk works again. -/
theorem failing_write_loses_event :
    let event : Event := ⟨⟨.tcp, .medium, 7, 0, 0, 0, 0⟩, [112], [], [], 0⟩
    let first : ProcessCall := ⟨event, [], 1, 1, 1, 0, true⟩
    let again : ProcessCall := ⟨event, [], 2, 2, 2, 0, false⟩
    let m := processors 5 3
    let s := (m.start.call (.transactional first)).1
    let t := (s.call (.transactional again)).1
    ¬m.Along Processors.KeepsEvent m.start [.transactional first] ∧
    (s.transactional.metrics.totalEventsProcessed = 1 ∧
      s.transactional.dedupTable.isDuplicate 7 = true) ∧
    t.io.storage = some .initial ∧ t.io.dlq = some .initial ∧ t.io.notifications = [] := by
  intro event first again m s t
  have hthrew : (m.start.call (.transactional first)).2 = .threw := by decide +kernel
  have hcounted : s.transactional.metrics.totalEventsProcessed = 1 := by decide +kernel
  refine ⟨?_, ⟨hcounted, ?_⟩, ?_, ?_, ?_⟩
  · intro hkeeps
    have hsame := (hkeeps.1.2 hthrew).1
    rw [hcounted] at hsame
    exact absurd hsame (by decide)
  · decide +kernel
  · decide +kernel
  · decide +kernel
  · decide +kernel

end EventStreamCore.Processor
