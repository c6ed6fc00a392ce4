import EventStreamCore.Processor.Batch

/-!
# Flushes cut short

`BatchProcessor::flushBucketLocked`, `src/core/processor/batch.cpp:104–127`, when
`handler->handle` throws: the loop has stored, reported or dead-lettered the events before, and
the bucket still holds all of them. `ProcessManager::runLoop`,
`src/core/processor/manager.cpp:60–72`, catches the exception and goes on.
-/

namespace EventStreamCore.Processor
open EventStreamCore.Lib EventStreamCore.Events EventStreamCore.Storage

/-- The event a call writes, reports or gives up. -/
def BatchCall.settles : BatchCall → Option Arrival
  | .push a => some a
  | .storeEvent a => some a
  | .notifyProcessed a => some a
  | .notifyDropped a _ => some a
  | .handle _ => none
  | .dropBatchFromQueue => none

/-- Does a call report this event to the observers? -/
def BatchCall.reports (a : Arrival) : BatchCall → Bool
  | .notifyProcessed b => a = b
  | .notifyDropped b _ => a = b
  | _ => false

/-- The calls that write, report or give up an event. -/
def settling (a : Arrival) (calls : List BatchCall) : List BatchCall :=
  calls.filter fun c ↦ c.settles = some a

/-- All that is ever done for an event: it is given up or processed, and reported. -/
inductive Settled (a : Arrival) : List BatchCall → Prop where
  | dropped (reason : String) : Settled a [.notifyDropped a reason]
  | pushed (reason : String) : Settled a [.push a, .notifyDropped a reason]
  | processed : Settled a [.notifyProcessed a]
  | stored : Settled a [.storeEvent a, .notifyProcessed a]

theorem settling_append (a : Arrival) (calls more : List BatchCall) :
    settling a (calls ++ more) = settling a calls ++ settling a more := List.filter_append ..

/-- An event that is done with has been reported. -/
private theorem reports_of_settled {a : Arrival} {calls : List BatchCall}
    (h : Settled a (settling a calls)) : calls.any (BatchCall.reports a) = true := by
  have hreport : ∃ c ∈ settling a calls, c.reports a = true := by
    generalize settling a calls = done at h
    cases h with
    | dropped reason => exact ⟨_, List.mem_cons_self, decide_eq_true rfl⟩
    | pushed reason =>
      exact ⟨_, List.mem_cons_of_mem _ List.mem_cons_self, decide_eq_true rfl⟩
    | processed => exact ⟨_, List.mem_cons_self, decide_eq_true rfl⟩
    | stored => exact ⟨_, List.mem_cons_of_mem _ List.mem_cons_self, decide_eq_true rfl⟩
  obtain ⟨c, hc, hreports⟩ := hreport
  exact List.any_eq_true.mpr ⟨c, (List.mem_filter.mp hc).1, hreports⟩

/-- What is done for an event is done once. -/
private theorem count_le_one {a : Arrival} {calls : List BatchCall}
    (h : settling a calls = [] ∨ Settled a (settling a calls)) :
    calls.count (.storeEvent a) ≤ 1 ∧ calls.count (.notifyProcessed a) ≤ 1 ∧
      calls.count (.push a) ≤ 1 := by
  have hcount : ∀ c : BatchCall, c.settles = some a → (settling a calls).count c = calls.count c :=
    fun c hc ↦ List.count_filter (decide_eq_true hc)
  rw [← hcount (.storeEvent a) rfl, ← hcount (.notifyProcessed a) rfl, ← hcount (.push a) rfl]
  generalize settling a calls = done at h
  obtain rfl | h := h
  · exact ⟨Nat.zero_le 1, Nat.zero_le 1, Nat.zero_le 1⟩
  · cases h <;> simp

namespace BatchProcessor

/-- One round of the flush loop settles its own event or none. -/
private theorem settling_flushEvent (io : Sinks) (env : BatchEnv) (handler : EventHandler)
    (i : Nat) (x a : Arrival) :
    settling a (flushEvent io env handler i x).1 = [] ∨
      a = x ∧ Settled a (settling a (flushEvent io env handler i x).1) := by
  by_cases he : a = x
  · subst he
    obtain ⟨h, -⟩ | ⟨reason, h⟩ | h := flushEvent_cases io env handler i a
    · rw [h]
      exact .inl rfl
    · right
      rw [h]
      refine ⟨rfl, ?_⟩
      split
      · simpa [settling, BatchCall.settles] using Settled.pushed reason
      · simpa [settling, BatchCall.settles] using Settled.dropped reason
    · right
      rw [h]
      refine ⟨rfl, ?_⟩
      split
      · simpa [settling, BatchCall.settles] using Settled.stored
      · simpa [settling, BatchCall.settles] using Settled.processed
  · left
    have hne : x ≠ a := fun h ↦ he h.symm
    obtain ⟨h, -⟩ | ⟨reason, h⟩ | h := flushEvent_cases io env handler i x
    · rw [h]
      rfl
    · rw [h]
      split <;> simp [settling, BatchCall.settles, hne]
    · rw [h]
      split <;> simp [settling, BatchCall.settles, hne]

private theorem settling_flushEvents (io : Sinks) (env : BatchEnv) (handler : EventHandler)
    (i : Nat) {events : List Arrival} (hnodup : events.Nodup) (a : Arrival) :
    settling a (flushEvents io env handler i events).1 = [] ∨
      a ∈ events ∧ Settled a (settling a (flushEvents io env handler i events).1) := by
  induction events generalizing i with
  | nil => exact .inl rfl
  | cons x rest ih =>
    obtain ⟨hx, hrest⟩ := List.nodup_cons.mp hnodup
    have hfirst := settling_flushEvent io env handler i x a
    have hmore := ih (i + 1) hrest
    unfold flushEvents
    cases hround : flushEvent io env handler i x with
    | mk calls outcome =>
      rw [hround] at hfirst
      cases outcome with
      | threw =>
        obtain hnone | ⟨rfl, hdone⟩ := hfirst
        · exact .inl hnone
        · exact .inr ⟨List.mem_cons_self, hdone⟩
      | returned =>
        dsimp only at hfirst ⊢
        rw [settling_append]
        obtain hnone | ⟨rfl, hdone⟩ := hfirst
        · rw [hnone, List.nil_append]
          exact hmore.imp_right fun h ↦ ⟨List.mem_cons_of_mem _ h.1, h.2⟩
        · have hno : settling a (flushEvents io env handler (i + 1) rest).1 = [] :=
            hmore.resolve_right fun h ↦ hx h.1
          rw [hno, List.append_nil]
          exact .inr ⟨List.mem_cons_self, hdone⟩

/-- A flush settles each event of its bucket or not, and empties the bucket or leaves it. -/
private theorem settling_flushBucketLocked (io : Sinks) (env : BatchEnv) (topic : Bytes)
    {bucket : TopicBucket} (hnodup : bucket.events.Nodup) :
    (∀ a, settling a (flushBucketLocked io env topic bucket).2.1 = [] ∨
      a ∈ bucket.events ∧ Settled a (settling a (flushBucketLocked io env topic bucket).2.1)) ∧
    ((flushBucketLocked io env topic bucket).1.events = [] ∨
      (flushBucketLocked io env topic bucket).2.2 = .threw ∧
        (flushBucketLocked io env topic bucket).1.events = bucket.events) := by
  have hloop := settling_flushEvents io env
    (EventHandlerRegistry.getOrDefault env.handlers topic) 1 hnodup
  unfold flushBucketLocked
  split
  · next hempty => exact ⟨fun _ ↦ .inl rfl, .inl (List.isEmpty_iff.mp hempty)⟩
  · dsimp only
    cases hflush : flushEvents io env (EventHandlerRegistry.getOrDefault env.handlers topic) 1
        bucket.events with
    | mk calls outcome =>
      rw [hflush] at hloop
      cases outcome with
      | threw => exact ⟨hloop, .inr ⟨rfl, rfl⟩⟩
      | returned => exact ⟨hloop, .inl rfl⟩

end BatchProcessor

/-- The events in the buckets are distinct and of their bucket's topic, nothing was done yet for
an event to come, and whatever was done for an event is all that is ever done for one. -/
structure Settles (p : BatchProcessor) (calls : List BatchCall) (arrivals : Nat) : Prop where
  bucket : ∀ topic, ∀ a ∈ (p.buckets topic).events,
    a.event.topic = topic ∧ a.ticket < arrivals
  nodup : ∀ topic, (p.buckets topic).events.Nodup
  tocome : ∀ a : Arrival, arrivals ≤ a.ticket → settling a calls = []
  settled : ∀ a, settling a calls = [] ∨ Settled a (settling a calls)

namespace Settles

variable {p : BatchProcessor} {calls more : List BatchCall} {arrivals : Nat}

/-- An event that was not reported is not settled. -/
theorem settling_of_unreported (h : Settles p calls arrivals) {a : Arrival}
    (ha : calls.any (BatchCall.reports a) = false) : settling a calls = [] := by
  apply (h.settled a).resolve_right
  intro hdone
  rw [reports_of_settled hdone] at ha
  cases ha

/-- Calls that settle only events that were not settled before. -/
theorem append (h : Settles p calls arrivals) {later : Nat} (hle : arrivals ≤ later)
    (hmore : ∀ a, settling a more = [] ∨
      settling a calls = [] ∧ a.ticket < later ∧ Settled a (settling a more)) :
    Settles p (calls ++ more) later := by
  constructor
  · exact fun topic a ha ↦ ⟨(h.bucket topic a ha).1, Nat.lt_of_lt_of_le (h.bucket topic a ha).2 hle⟩
  · exact h.nodup
  · intro a ha
    rw [settling_append, h.tocome a (Nat.le_trans hle ha), List.nil_append]
    exact (hmore a).resolve_right fun hm ↦ absurd hm.2.1 (Nat.not_lt.mpr ha)
  · intro a
    rw [settling_append]
    obtain hnone | ⟨hnew, -, hdone⟩ := hmore a
    · rw [hnone, List.append_nil]
      exact h.settled a
    · rw [hnew, List.nil_append]
      exact .inr hdone

/-- More events arrive, and are counted. -/
theorem counted (h : Settles p calls arrivals) {later : Nat} (hle : arrivals ≤ later)
    (metrics : Metrics) : Settles { p with metrics } calls later where
  bucket topic a ha := ⟨(h.bucket topic a ha).1, Nat.lt_of_lt_of_le (h.bucket topic a ha).2 hle⟩
  nodup := h.nodup
  tocome a ha := h.tocome a (Nat.le_trans hle ha)
  settled := h.settled

/-- Another bucket is written. -/
theorem putBucket (h : Settles p calls arrivals) {topic : Bytes} {bucket : TopicBucket}
    (hbucket : ∀ a ∈ bucket.events, a.event.topic = topic ∧ a.ticket < arrivals)
    (hnodup : bucket.events.Nodup) : Settles (p.putBucket topic bucket) calls arrivals := by
  constructor
  · intro other a ha
    by_cases he : other = topic
    · subst he
      simp only [BatchProcessor.putBucket, Function.update_self] at ha
      exact hbucket a ha
    · simp only [BatchProcessor.putBucket, Function.update_of_ne he] at ha
      exact h.bucket other a ha
  · intro other
    by_cases he : other = topic
    · subst he
      simp only [BatchProcessor.putBucket, Function.update_self]
      exact hnodup
    · simp only [BatchProcessor.putBucket, Function.update_of_ne he]
      exact h.nodup other
  · exact h.tocome
  · exact h.settled

/-- A flush of a bucket whose events are not settled, whatever becomes of its flush time. -/
theorem flush (h : Settles p calls arrivals) (io : Sinks) (env : BatchEnv) {topic : Bytes}
    {bucket : TopicBucket}
    (hbucket : ∀ a ∈ bucket.events, a.event.topic = topic ∧ a.ticket < arrivals)
    (hnodup : bucket.events.Nodup) (hnew : ∀ a ∈ bucket.events, settling a calls = [])
    (lastFlushTime : Nat) :
    Settles (p.putBucket topic
        ⟨(BatchProcessor.flushBucketLocked io env topic bucket).1.events, lastFlushTime⟩)
      (calls ++ (BatchProcessor.flushBucketLocked io env topic bucket).2.1) arrivals := by
  obtain ⟨hcalls, hevents⟩ :=
    BatchProcessor.settling_flushBucketLocked io env topic hnodup
  have hextended := h.append (Nat.le_refl arrivals)
    fun a ↦ (hcalls a).imp_right fun hd ↦ ⟨hnew a hd.1, (hbucket a hd.1).2, hd.2⟩
  apply hextended.putBucket
  · intro a ha
    obtain hnil | ⟨-, hsame⟩ := hevents
    · rw [hnil] at ha
      cases ha
    · rw [hsame] at ha
      exact hbucket a ha
  · obtain hnil | ⟨-, hsame⟩ := hevents
    · rw [hnil]
      exact List.nodup_nil
    · rw [hsame]
      exact hnodup

end Settles

namespace BatchProcessor

/-- Does an accepted event of this topic flush its bucket? `batch.cpp:90–99`. -/
def flushDue (p : BatchProcessor) (topic : Bytes) (now : Nat) : Bool :=
  (p.buckets topic).lastFlushTime ≠ 0 ∧ (p.buckets topic).lastFlushTime + p.windowNs ≤ now

/-- What `bucketEvent` does: the event joins its bucket, and the bucket is flushed if that is
due. -/
theorem bucketEvent_cases (p : BatchProcessor) (io : Sinks) (env : BatchEnv)
    (a : Arrival) :
    (p.flushDue a.event.topic a.arrivedAt = false ∧ ∃ lastFlushTime,
      p.bucketEvent io env a = ({ p with metrics := p.metrics.processed }.putBucket a.event.topic
        ⟨(p.buckets a.event.topic).events ++ [a], lastFlushTime⟩, [], .returned)) ∨
    (p.flushDue a.event.topic a.arrivedAt = true ∧ ∃ lastFlushTime,
      let bucket : TopicBucket :=
        ⟨(p.buckets a.event.topic).events ++ [a], (p.buckets a.event.topic).lastFlushTime⟩
      p.bucketEvent io env a = ({ p with metrics := p.metrics.processed }.putBucket a.event.topic
        ⟨(flushBucketLocked io env a.event.topic bucket).1.events, lastFlushTime⟩,
        (flushBucketLocked io env a.event.topic bucket).2)) := by
  unfold flushDue bucketEvent
  dsimp only
  split
  · next hfirst => exact .inl ⟨decide_eq_false fun h ↦ h.1 hfirst, _, rfl⟩
  · next hlater =>
    split
    · next hdue =>
      right
      refine ⟨decide_eq_true ⟨hlater, hdue⟩, ?_⟩
      split
      · next bucket calls hflush =>
        rw [hflush]
        exact ⟨bucket.lastFlushTime, rfl⟩
      · next bucket calls hflush =>
        rw [hflush]
        exact ⟨a.arrivedAt, rfl⟩
    · next hsoon => exact .inl ⟨decide_eq_false fun h ↦ hsoon h.2, _, rfl⟩

/-- `stop` on buckets whose events are not settled. -/
private theorem settles_flushAll (io : Sinks) (env : BatchEnv) (order : List Bytes)
    {p : BatchProcessor} {calls : List BatchCall} {arrivals : Nat} (h : Settles p calls arrivals)
    (hnew : ∀ topic ∈ order, ∀ a ∈ (p.buckets topic).events, settling a calls = []) :
    Settles (p.flushAll io env order).1 (calls ++ (p.flushAll io env order).2.1) arrivals := by
  induction order generalizing p calls with
  | nil =>
    rw [flushAll, List.append_nil]
    exact h
  | cons topic rest ih =>
    obtain ⟨hcalls, hevents⟩ := settling_flushBucketLocked io env topic (h.nodup topic)
    have hflush := h.flush io env (h.bucket topic) (h.nodup topic) (hnew topic List.mem_cons_self)
    unfold flushAll
    cases hresult : flushBucketLocked io env topic (p.buckets topic) with
    | mk bucket result =>
      obtain ⟨first, outcome⟩ := result
      rw [hresult] at hcalls hevents hflush
      cases outcome with
      | threw => exact hflush bucket.lastFlushTime
      | returned =>
        have hempty : bucket.events = [] := hevents.resolve_right fun hthrew ↦ by cases hthrew.1
        dsimp only
        rw [← List.append_assoc]
        refine ih (hflush bucket.lastFlushTime) ?_
        intro other hother a ha
        by_cases he : other = topic
        · subst he
          simp only [putBucket, Function.update_self] at ha
          rw [hempty] at ha
          cases ha
        · simp only [putBucket, Function.update_of_ne he] at ha
          rw [settling_append, hnew other (List.mem_cons_of_mem _ hother) a ha, List.nil_append]
          apply (hcalls a).resolve_right
          rintro ⟨hmem, -⟩
          exact he ((h.bucket other a ha).1.symm.trans (h.bucket topic a hmem).1)

end BatchProcessor

namespace BatchRun

/-- A bucket that is about to be flushed holds no event that an earlier flush, cut short by an
exception, has already reported. -/
def Fresh (s : BatchRun) : BatchLabel → Prop
  | .process event now env =>
    s.processor.accepts env event = true → s.processor.flushDue event.topic now = true →
      ∀ a ∈ (s.processor.buckets event.topic).events,
        s.calls.any (BatchCall.reports a) = false
  | .stop order _ => ∀ topic ∈ order, ∀ a ∈ (s.processor.buckets topic).events,
      s.calls.any (BatchCall.reports a) = false
  | .dropBatchEvents => True
  | .resumeBatchEvents => True

instance (s : BatchRun) (l : BatchLabel) : Decidable (s.Fresh l) :=
  match l with
  | .process event now env => inferInstanceAs (Decidable
      (s.processor.accepts env event = true → s.processor.flushDue event.topic now = true →
        ∀ a ∈ (s.processor.buckets event.topic).events,
          s.calls.any (BatchCall.reports a) = false))
  | .stop order _ => inferInstanceAs (Decidable
      (∀ topic ∈ order, ∀ a ∈ (s.processor.buckets topic).events,
        s.calls.any (BatchCall.reports a) = false))
  | .dropBatchEvents => .isTrue trivial
  | .resumeBatchEvents => .isTrue trivial

variable {s t : BatchRun}

/-- A call of `process`. -/
private theorem settles_process (h : Settles s.processor s.calls s.arrivals) {event : Event}
    {now : Nat} {env : BatchEnv} (hl : s.Fresh (.process event now env)) :
    Settles (s.process event now env).processor (s.process event now env).calls
      (s.process event now env).arrivals := by
  simp only [process]
  obtain ⟨haccepts, bus, reason, hbus, hp⟩ | ⟨haccepts, hp⟩ :=
    s.processor.process_cases s.io env ⟨s.arrivals, now, event⟩
  · rw [hp]
    refine (h.counted (Nat.le_refl _) _).append (Nat.le_succ _) fun b ↦ ?_
    by_cases he : b = ⟨s.arrivals, now, event⟩
    · subst he
      refine .inr ⟨h.tocome _ (Nat.le_refl _), Nat.lt_succ_self _, ?_⟩
      obtain rfl | rfl := hbus
      all_goals
        split
        · simpa [settling, BatchCall.settles] using Settled.pushed reason
        · simpa [settling, BatchCall.settles] using Settled.dropped reason
    · left
      obtain rfl | rfl := hbus
      all_goals split <;> simp [settling, BatchCall.settles, Ne.symm he]
  · have hnext : Settles { s.processor with metrics := s.processor.metrics.processed } s.calls
        (s.arrivals + 1) := h.counted (Nat.le_succ _) _
    have hbucket : ∀ b ∈ (s.processor.buckets event.topic).events ++
        [(⟨s.arrivals, now, event⟩ : Arrival)],
        b.event.topic = event.topic ∧ b.ticket < s.arrivals + 1 := by
      intro b hb
      obtain hb | hb := List.mem_append.mp hb
      · exact ⟨(h.bucket _ b hb).1, Nat.lt_succ_of_lt (h.bucket _ b hb).2⟩
      · rw [List.mem_singleton.mp hb]
        exact ⟨rfl, Nat.lt_succ_self _⟩
    have hnodup : ((s.processor.buckets event.topic).events ++
        [(⟨s.arrivals, now, event⟩ : Arrival)]).Nodup := by
      rw [List.nodup_append]
      refine ⟨h.nodup _, List.pairwise_singleton _ _, fun b hb c hc ↦ ?_⟩
      rw [List.mem_singleton.mp hc]
      rintro rfl
      exact Nat.lt_irrefl _ (h.bucket _ _ hb).2
    rw [hp]
    obtain ⟨-, lastFlushTime, hbucketed⟩ | ⟨hdue, lastFlushTime, hbucketed⟩ :=
      s.processor.bucketEvent_cases s.io env ⟨s.arrivals, now, event⟩
    · rw [hbucketed, List.append_nil]
      exact hnext.putBucket hbucket hnodup
    · rw [hbucketed]
      refine hnext.flush s.io env hbucket hnodup (fun b hb ↦ ?_) lastFlushTime
      obtain hb | hb := List.mem_append.mp hb
      · exact h.settling_of_unreported (hl haccepts hdue b hb)
      · rw [List.mem_singleton.mp hb]
        exact h.tocome _ (Nat.le_refl _)

/-- One call, whatever it is. -/
private theorem settles_step (h : Settles s.processor s.calls s.arrivals) {l : BatchLabel}
    (hl : s.Fresh l) (ht : s.step l = some t) : Settles t.processor t.calls t.arrivals := by
  cases l with
  | process event now env =>
    cases ht
    exact settles_process h hl
  | stop order env =>
    simp only [step] at ht
    split at ht
    · cases ht
      exact BatchProcessor.settles_flushAll s.io env order h
        fun topic htopic a ha ↦ h.settling_of_unreported (hl topic htopic a ha)
    · cases ht
  | dropBatchEvents =>
    cases ht
    exact ⟨h.bucket, h.nodup, h.tocome, h.settled⟩
  | resumeBatchEvents =>
    cases ht
    exact ⟨h.bucket, h.nodup, h.tocome, h.settled⟩

end BatchRun

/-- In every run in which no bucket is flushed while it holds an event that an earlier flush has
reported, each event is written, reported as processed and pushed to the dead letter queue at
most once, whatever throws. -/
theorem settled_at_most_once {window : Nat} {eventBus : Bool} {io : Sinks} {s : BatchRun}
    (h : (batching window eventBus io).ReachableWith BatchRun.Fresh s) (a : Arrival) :
    s.calls.count (.storeEvent a) ≤ 1 ∧ s.calls.count (.notifyProcessed a) ≤ 1 ∧
      s.calls.count (.push a) ≤ 1 := by
  have hstart : Settles (BatchRun.initial window eventBus io).processor
      (BatchRun.initial window eventBus io).calls
      (BatchRun.initial window eventBus io).arrivals :=
    ⟨fun _ _ ha ↦ (by cases ha), fun _ ↦ List.nodup_nil, fun _ _ ↦ rfl, fun _ ↦ .inl rfl⟩
  have hinv : Settles s.processor s.calls s.arrivals :=
    Machine.ReachableWith.invariant (I := fun s ↦ Settles s.processor s.calls s.arrivals) hstart
      (fun _ _ _ hi hl ht ↦ BatchRun.settles_step hi hl ht) h
  exact count_le_one (hinv.settled a)

/-- A flush that throws on its first event is made up for: both events are written once. -/
theorem settled_at_most_once_after_throw :
    let event : Event := ⟨⟨.tcp, .batch, 7, 0, 0, 0, 0⟩, [112], [], [], 0⟩
    let m := batching 5 false ⟨some .initial, some .initial, []⟩
    let throwing : BatchEnv := ⟨[], fun a ↦ a.ticket = 0, fun _ ↦ false⟩
    let quiet : BatchEnv := ⟨[], fun _ ↦ false, fun _ ↦ false⟩
    let ls : List BatchLabel :=
      [.process event 1 quiet, .process event 5000000001 throwing, .stop [[112]] quiet]
    ∃ s, m.runWith BatchRun.Fresh m.start ls = some s ∧
      (handledEvents s.calls).map Arrival.ticket = [0, 0, 1] ∧
      s.calls.count (.storeEvent ⟨0, 1, event⟩) = 1 ∧
      s.calls.count (.notifyProcessed ⟨0, 1, event⟩) ≤ 1 := by
  intro event m throwing quiet ls
  have hrun : (m.runWith BatchRun.Fresh m.start ls).map
        (fun s ↦ ((handledEvents s.calls).map Arrival.ticket,
          s.calls.count (.storeEvent ⟨0, 1, event⟩))) = some ([0, 0, 1], 1) := by
    decide +kernel
  obtain ⟨s, hrun, hs⟩ := Option.map_eq_some_iff.mp hrun
  rw [Prod.mk.injEq] at hs
  have hreach := Machine.ReachableWith.run .start hrun
  exact ⟨s, hrun, hs.1, hs.2, (settled_at_most_once hreach _).2.1⟩

/-- A flush that throws on its second event repeats the first: it is written and reported twice. -/
theorem interrupted_flush_repeats :
    let event : Event := ⟨⟨.tcp, .batch, 7, 0, 0, 0, 0⟩, [112], [], [], 0⟩
    let m := batching 5 false ⟨some .initial, some .initial, []⟩
    let throwing : BatchEnv := ⟨[], fun a ↦ a.ticket = 1, fun _ ↦ false⟩
    let quiet : BatchEnv := ⟨[], fun _ ↦ false, fun _ ↦ false⟩
    let ls : List BatchLabel :=
      [.process event 1 quiet, .process event 5000000001 throwing, .stop [[112]] quiet]
    ∃ s, m.run m.start ls = some s ∧ (⟨0, 1, event⟩ : Arrival) ∈ s.accepted ∧
      s.calls.count (.storeEvent ⟨0, 1, event⟩) = 2 ∧
      s.calls.count (.notifyProcessed ⟨0, 1, event⟩) = 2 := by
  intro event m throwing quiet ls
  have hrun : (m.run m.start ls).map
        (fun s ↦ (decide ((⟨0, 1, event⟩ : Arrival) ∈ s.accepted),
          s.calls.count (.storeEvent ⟨0, 1, event⟩),
          s.calls.count (.notifyProcessed ⟨0, 1, event⟩))) = some (true, 2, 2) := by
    decide +kernel
  obtain ⟨s, hrun, hs⟩ := Option.map_eq_some_iff.mp hrun
  rw [Prod.mk.injEq, Prod.mk.injEq, decide_eq_true_eq] at hs
  exact ⟨s, hrun, hs⟩

end EventStreamCore.Processor
