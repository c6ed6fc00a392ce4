import EventStreamCore.Processor.Batch

/-!
# Runs of the batch processor

What `BatchProcessor`, `src/core/processor/batch.cpp:23–127`, does with the events it has accepted,
over all sequences of calls.
-/

namespace EventStreamCore.Processor
open EventStreamCore.Lib EventStreamCore.Events EventStreamCore.Storage

/-- Every accepted event was handled or is in the bucket of its topic, in the order of arrival;
no event of a bucket arrived before the bucket's last flush. -/
structure Conserves (p : BatchProcessor) (accepted : List Arrival) (calls : List BatchCall)
    (clock : Nat) : Prop where
  conserve : ∀ topic, ((handledEvents calls).filter fun a ↦ a.event.topic = topic) ++
    (p.buckets topic).events = accepted.filter fun a ↦ a.event.topic = topic
  topics : ∀ topic, topic ∉ p.topics → (p.buckets topic).events = []
  waiting : ∀ topic, ∀ a ∈ (p.buckets topic).events,
    0 < (p.buckets topic).lastFlushTime ∧ (p.buckets topic).lastFlushTime ≤ a.arrivedAt
  flushed : ∀ topic, (p.buckets topic).lastFlushTime ≤ clock

namespace Conserves

variable {p : BatchProcessor} {accepted : List Arrival} {calls : List BatchCall} {clock : Nat}

/-- The events of a bucket are of its topic. -/
theorem topic_eq (h : Conserves p accepted calls clock) {topic : Bytes} {a : Arrival}
    (ha : a ∈ (p.buckets topic).events) : a.event.topic = topic := by
  have hmem : a ∈ accepted.filter fun a ↦ a.event.topic = topic := by
    rw [← h.conserve topic]
    exact List.mem_append_right _ ha
  exact of_decide_eq_true (List.mem_filter.mp hmem).2

/-- Events of one topic are, seen from a topic, all of them or none. -/
private theorem filter_topic {topic : Bytes} {events : List Arrival}
    (hall : ∀ a ∈ events, a.event.topic = topic) (other : Bytes) :
    (events.filter fun a ↦ a.event.topic = other) = if other = topic then events else [] := by
  split
  · next he =>
    exact List.filter_eq_self.mpr fun a ha ↦ by simp [hall a ha, he]
  · next hne =>
    refine List.filter_eq_nil_iff.mpr fun a ha ↦ ?_
    simp only [hall a ha, decide_eq_true_eq]
    exact fun he ↦ hne he.symm

private theorem mem_topics_putBucket (p : BatchProcessor) (topic : Bytes) (bucket : TopicBucket)
    (other : Bytes) :
    other ∈ (p.putBucket topic bucket).topics ↔ other ∈ p.topics ∨ other = topic := by
  simp only [BatchProcessor.putBucket]
  split
  · next hknown =>
    constructor
    · exact .inl
    · rintro (hmem | rfl)
      · exact hmem
      · exact hknown
  · rw [List.mem_append, List.mem_singleton]

/-- A bucket gives a first part of its events to `handle` and gets new ones at its end. -/
theorem putBucket (h : Conserves p accepted calls clock) {topic : Bytes} {bucket : TopicBucket}
    {handled arrived : List Arrival} {more : List BatchCall} {now : Nat} (hnow : clock ≤ now)
    (hmore : handledEvents more = handled) (harrived : ∀ a ∈ arrived, a.event.topic = topic)
    (hevents : handled ++ bucket.events = (p.buckets topic).events ++ arrived)
    (hwaiting : ∀ a ∈ bucket.events, 0 < bucket.lastFlushTime ∧ bucket.lastFlushTime ≤ a.arrivedAt)
    (hflushed : bucket.lastFlushTime ≤ now) :
    Conserves (p.putBucket topic bucket) (accepted ++ arrived) (calls ++ more) now := by
  have hhandled : ∀ a ∈ handled, a.event.topic = topic := by
    intro a ha
    have hmem : a ∈ (p.buckets topic).events ++ arrived :=
      hevents ▸ List.mem_append_left _ ha
    exact (List.mem_append.mp hmem).elim h.topic_eq (harrived a)
  constructor
  · intro other
    rw [handledEvents_append, List.filter_append, List.filter_append, ← h.conserve other, hmore,
      filter_topic hhandled other, filter_topic harrived other]
    by_cases he : other = topic
    · subst he
      simp only [BatchProcessor.putBucket, Function.update_self, if_true, List.append_assoc,
        hevents]
    · simp only [BatchProcessor.putBucket, Function.update_of_ne he, if_neg he, List.append_nil]
  · intro other hother
    rw [mem_topics_putBucket, not_or] at hother
    obtain ⟨hold, hne⟩ := hother
    simp only [BatchProcessor.putBucket, Function.update_of_ne hne]
    exact h.topics other hold
  · intro other a ha
    by_cases he : other = topic
    · subst he
      simp only [BatchProcessor.putBucket, Function.update_self] at ha ⊢
      exact hwaiting a ha
    · simp only [BatchProcessor.putBucket, Function.update_of_ne he] at ha ⊢
      exact h.waiting other a ha
  · intro other
    by_cases he : other = topic
    · subst he
      simp only [BatchProcessor.putBucket, Function.update_self]
      exact hflushed
    · simp only [BatchProcessor.putBucket, Function.update_of_ne he]
      exact Nat.le_trans (h.flushed other) hnow

/-- A flush of one bucket. -/
private theorem flush (h : Conserves p accepted calls clock) (topic : Bytes)
    {more : List BatchCall} (hmore : handledEvents more = (p.buckets topic).events) :
    Conserves (p.putBucket topic ⟨[], (p.buckets topic).lastFlushTime⟩) accepted
      (calls ++ more) clock := by
  have hput : Conserves (p.putBucket topic ⟨[], (p.buckets topic).lastFlushTime⟩)
      (accepted ++ []) (calls ++ more) clock :=
    h.putBucket (Nat.le_refl clock) hmore (fun a ha ↦ by cases ha) rfl (fun a ha ↦ by cases ha)
      (h.flushed topic)
  rwa [List.append_nil] at hput

end Conserves

namespace BatchProcessor

variable {p : BatchProcessor} {env : BatchEnv} {accepted : List Arrival}
  {calls : List BatchCall} {clock : Nat}

/-- An event goes into its bucket: nothing is lost, and what stays there arrived less than one
window ago. -/
private theorem bucketEvent_quiet (io : Sinks) (h : Conserves p accepted calls clock)
    (hwindow : 1 ≤ p.window) (hq : env.Quiet) {a : Arrival} (hpos : 0 < a.arrivedAt)
    (hclock : clock ≤ a.arrivedAt) :
    Conserves (p.bucketEvent io env a).1 (accepted ++ [a])
      (calls ++ (p.bucketEvent io env a).2.1) a.arrivedAt ∧
    (p.bucketEvent io env a).1.window = p.window ∧
    ∀ b ∈ ((p.bucketEvent io env a).1.buckets a.event.topic).events,
      a.arrivedAt < b.arrivedAt + p.windowNs := by
  have hns : 0 < p.windowNs := Nat.mul_pos hwindow (by decide)
  have hcounted : Conserves { p with metrics := p.metrics.processed } accepted calls clock :=
    ⟨h.conserve, h.topics, h.waiting, h.flushed⟩
  have harrived : ∀ b ∈ [a], b.event.topic = a.event.topic :=
    fun b hb ↦ by rw [List.mem_singleton.mp hb]
  unfold bucketEvent
  dsimp only
  split
  · -- the first event of a topic: the bucket was empty
    next hfirst =>
    have hempty : (p.buckets a.event.topic).events = [] :=
      List.eq_nil_iff_forall_not_mem.mpr fun b hb ↦ by
        have := (h.waiting _ b hb).1
        omega
    have hkept : ∀ b ∈ (p.buckets a.event.topic).events ++ [a], b = a := by
      rw [hempty]
      exact fun b hb ↦ List.mem_singleton.mp hb
    refine ⟨hcounted.putBucket hclock rfl harrived rfl ?_ (Nat.le_refl _), rfl, ?_⟩
    · intro b hb
      rw [hkept b hb]
      exact ⟨hpos, Nat.le_refl _⟩
    · intro b hb
      simp only [putBucket, Function.update_self] at hb
      rw [hkept b hb]
      omega
  · next hlater =>
    split
    · obtain ⟨more, hflush, hmore⟩ := flushBucketLocked_quiet io hq a.event.topic
        ⟨(p.buckets a.event.topic).events ++ [a], (p.buckets a.event.topic).lastFlushTime⟩
      rw [hflush]
      refine ⟨hcounted.putBucket hclock hmore harrived (List.append_nil _) ?_ (Nat.le_refl _), rfl,
        ?_⟩
      · intro b hb
        cases hb
      · intro b hb
        simp only [putBucket, Function.update_self] at hb
        cases hb
    · next hsoon =>
      have hsoon : a.arrivedAt < (p.buckets a.event.topic).lastFlushTime + p.windowNs :=
        Nat.lt_of_not_le hsoon
      have hold := h.flushed a.event.topic
      have hkept : ∀ b ∈ (p.buckets a.event.topic).events ++ [a],
          (p.buckets a.event.topic).lastFlushTime ≤ b.arrivedAt := by
        intro b hb
        obtain hb | hb := List.mem_append.mp hb
        · exact (h.waiting _ b hb).2
        · rw [List.mem_singleton.mp hb]
          omega
      refine ⟨hcounted.putBucket hclock rfl harrived rfl ?_ (Nat.le_trans hold hclock), rfl, ?_⟩
      · exact fun b hb ↦ ⟨Nat.pos_of_ne_zero hlater, hkept b hb⟩
      · intro b hb
        simp only [putBucket, Function.update_self] at hb
        have := hkept b hb
        omega

/-- `stop` empties every bucket it visits. -/
private theorem flushAll_quiet (io : Sinks) (hq : env.Quiet) (order : List Bytes)
    (h : Conserves p accepted calls clock) :
    Conserves (p.flushAll io env order).1 accepted (calls ++ (p.flushAll io env order).2.1)
      clock ∧
    ∀ topic, topic ∈ order ∨ (p.buckets topic).events = [] →
      ((p.flushAll io env order).1.buckets topic).events = [] := by
  induction order generalizing p calls with
  | nil =>
    refine ⟨?_, fun topic ht ↦ ht.elim (fun hmem ↦ by cases hmem) id⟩
    rw [flushAll, List.append_nil]
    exact h
  | cons topic rest ih =>
    obtain ⟨first, hflush, hfirst⟩ := flushBucketLocked_quiet io hq topic (p.buckets topic)
    obtain ⟨hrest, hempty⟩ := ih (h.flush topic hfirst)
    unfold flushAll
    rw [hflush]
    dsimp only
    rw [← List.append_assoc]
    refine ⟨hrest, fun other hother ↦ hempty other ?_⟩
    by_cases he : other = topic
    · subst he
      right
      simp only [putBucket, Function.update_self]
    · obtain hmem | hnil := hother
      · exact .inl ((List.mem_cons.mp hmem).resolve_left he)
      · right
        simp only [putBucket, Function.update_of_ne he]
        exact hnil

/-- `stop` leaves the window alone. -/
private theorem window_flushAll (p : BatchProcessor) (io : Sinks) (env : BatchEnv)
    (order : List Bytes) : (p.flushAll io env order).1.window = p.window := by
  induction order generalizing p with
  | nil => rfl
  | cons topic rest ih =>
    unfold flushAll
    split
    · rfl
    · exact (ih _).trans rfl

end BatchProcessor

namespace BatchRun

/-- Nothing throws, and the clock readings are positive and do not go back. -/
def Steady (s : BatchRun) : BatchLabel → Prop
  | .process _ now env => 0 < now ∧ s.clock ≤ now ∧ env.Quiet
  | .stop _ env => env.Quiet
  | .dropBatchEvents => True
  | .resumeBatchEvents => True

/-- What every run of steady calls keeps. -/
structure Inv (window : Nat) (s : BatchRun) : Prop where
  conserves : Conserves s.processor s.accepted s.calls s.clock
  window : s.processor.window = window
  tickets : s.accepted.Pairwise fun a b ↦ a.ticket < b.ticket
  arrived : ∀ a ∈ s.accepted, a.ticket < s.arrivals

/-- A call that does not accept its event leaves the buckets as they are; any other goes through
`bucketEvent`. -/
theorem process_cases (s : BatchRun) (event : Event) (now : Nat) (env : BatchEnv) :
    (s.processor.accepts env event = false ∧
      (s.process event now env).processor.topics = s.processor.topics ∧
      (s.process event now env).processor.buckets = s.processor.buckets ∧
      (s.process event now env).processor.window = s.processor.window ∧
      (s.process event now env).accepted = s.accepted ∧
      ∃ more, (s.process event now env).calls = s.calls ++ more ∧ handledEvents more = []) ∨
    (s.processor.accepts env event = true ∧ s.process event now env =
      let (processor, calls, _) := s.processor.bucketEvent s.io env ⟨s.arrivals, now, event⟩
      { processor
        io := calls.foldl BatchCall.apply s.io
        clock := now
        arrivals := s.arrivals + 1
        accepted := s.accepted ++ [⟨s.arrivals, now, event⟩]
        calls := s.calls ++ calls }) := by
  simp only [process]
  obtain ⟨haccepts, bus, reason, hbus, hp⟩ | ⟨haccepts, hp⟩ :=
    s.processor.process_cases s.io env ⟨s.arrivals, now, event⟩
  · left
    rw [hp]
    refine ⟨haccepts, rfl, rfl, rfl, if_neg (by rw [haccepts]; decide), _, rfl, ?_⟩
    obtain rfl | rfl := hbus
    · split <;> rfl
    · split <;> rfl
  · right
    rw [hp]
    refine ⟨haccepts, ?_⟩
    simp only [show s.processor.accepts env event = true from haccepts, if_true]

namespace Inv

variable {window : Nat} {s t : BatchRun}

/-- A new processor. -/
theorem initial (window : Nat) (eventBus : Bool) (io : Sinks) :
    (BatchRun.initial window eventBus io).Inv window where
  conserves := ⟨fun _ ↦ rfl, fun _ _ ↦ rfl, fun _ _ h ↦ (by cases h), fun _ ↦ Nat.le_refl 0⟩
  window := rfl
  tickets := List.Pairwise.nil
  arrived _ h := by cases h

/-- A call of `process`; what an accepted event leaves in its bucket arrived less than one
window ago. -/
theorem process (h : s.Inv window) (hwindow : 1 ≤ window) {event : Event} {now : Nat}
    {env : BatchEnv} (hl : s.Steady (.process event now env)) :
    (s.process event now env).Inv window ∧
    (s.processor.accepts env event = true →
      ∀ a ∈ ((s.process event now env).processor.buckets event.topic).events,
        now < a.arrivedAt + window * 1000000000) := by
  obtain ⟨hpos, hclock, hq⟩ := hl
  obtain ⟨haccepts, htopics, hbuckets, hsame, hacc, more, hcalls, hmore⟩ | ⟨haccepts, hp⟩ :=
    s.process_cases event now env
  · refine ⟨⟨⟨?_, ?_, ?_, ?_⟩, hsame.trans h.window, ?_, ?_⟩, ?_⟩
    · intro topic
      rw [hcalls, hbuckets, hacc, handledEvents_append, hmore, List.append_nil]
      exact h.conserves.conserve topic
    · rw [htopics, hbuckets]
      exact h.conserves.topics
    · rw [hbuckets]
      exact h.conserves.waiting
    · rw [hbuckets]
      exact fun topic ↦ Nat.le_trans (h.conserves.flushed topic) hclock
    · rw [hacc]
      exact h.tickets
    · rw [hacc]
      exact fun a ha ↦ Nat.lt_succ_of_lt (h.arrived a ha)
    · rw [haccepts]
      exact nofun
  · obtain ⟨hconserves, hsame, hleft⟩ := BatchProcessor.bucketEvent_quiet s.io
      (a := ⟨s.arrivals, now, event⟩) h.conserves (h.window ▸ hwindow) hq hpos hclock
    rw [hp]
    refine ⟨⟨hconserves, hsame.trans h.window, ?_, ?_⟩, ?_⟩
    · rw [List.pairwise_append]
      refine ⟨h.tickets, List.pairwise_singleton _ _, fun a ha b hb ↦ ?_⟩
      rw [List.mem_singleton.mp hb]
      exact h.arrived a ha
    · intro a ha
      obtain ha | ha := List.mem_append.mp ha
      · exact Nat.lt_succ_of_lt (h.arrived a ha)
      · rw [List.mem_singleton.mp ha]
        exact Nat.lt_succ_self _
    · intro _ a ha
      have hlt := hleft a ha
      rwa [BatchProcessor.windowNs, h.window] at hlt

/-- A call of `stop`. -/
theorem stop (h : s.Inv window) {order : List Bytes} {env : BatchEnv} (hq : env.Quiet)
    (horder : order.isPerm s.processor.topics) :
    (s.stop order env).Inv window ∧
    ∀ topic, ((s.stop order env).processor.buckets topic).events = [] := by
  obtain ⟨hconserves, hempty⟩ :=
    BatchProcessor.flushAll_quiet s.io hq order h.conserves
  have hsame := s.processor.window_flushAll s.io env order
  refine ⟨⟨hconserves, hsame.trans h.window, h.tickets, h.arrived⟩, fun topic ↦ hempty topic ?_⟩
  by_cases hmem : topic ∈ s.processor.topics
  · exact .inl ((List.isPerm_iff.mp horder).mem_iff.mpr hmem)
  · exact .inr (h.conserves.topics topic hmem)

/-- One call, whatever it is. -/
theorem step (h : s.Inv window) (hwindow : 1 ≤ window) {l : BatchLabel} (hl : s.Steady l)
    (ht : s.step l = some t) : t.Inv window := by
  cases l with
  | process event now env =>
    cases ht
    exact (h.process hwindow hl).1
  | stop order env =>
    simp only [BatchRun.step] at ht
    split at ht
    · next horder =>
      cases ht
      exact (h.stop hl horder).1
    · cases ht
  | dropBatchEvents =>
    cases ht
    exact ⟨⟨h.conserves.conserve, h.conserves.topics, h.conserves.waiting, h.conserves.flushed⟩,
      h.window, h.tickets, h.arrived⟩
  | resumeBatchEvents =>
    cases ht
    exact ⟨⟨h.conserves.conserve, h.conserves.topics, h.conserves.waiting, h.conserves.flushed⟩,
      h.window, h.tickets, h.arrived⟩

end Inv
end BatchRun

/-- Batching conserves events and honours the window. In every state reached without an
exception by calls whose clock does not go back, the events of a topic that were handled and
those in its bucket are the accepted ones in the order of arrival; what the acceptance of an
event leaves in its bucket arrived less than one window before; and `stop` leaves every bucket
empty. -/
theorem batching_conserves {window : Nat} (hwindow : 1 ≤ window) {eventBus : Bool} {io : Sinks}
    {s : BatchRun} (h : (batching window eventBus io).ReachableWith BatchRun.Steady s) :
    (∀ topic, ((handledEvents s.calls).filter fun a ↦ a.event.topic = topic) ++
      (s.processor.buckets topic).events = s.accepted.filter fun a ↦ a.event.topic = topic) ∧
    s.accepted.Pairwise (fun a b ↦ a.ticket < b.ticket) ∧
    (∀ event now env, s.Steady (.process event now env) → s.processor.accepts env event = true →
      ∀ a ∈ ((s.process event now env).processor.buckets event.topic).events,
        now < a.arrivedAt + window * 1000000000) ∧
    (∀ order env t, s.Steady (.stop order env) → s.step (.stop order env) = some t →
      ∀ topic, (t.processor.buckets topic).events = []) := by
  have hinv : s.Inv window := h.invariant (BatchRun.Inv.initial window eventBus io)
    fun _ _ _ hi hl ht ↦ hi.step hwindow hl ht
  refine ⟨hinv.conserves.conserve, hinv.tickets, ?_, ?_⟩
  · intro event now env hl haccepts
    exact (hinv.process hwindow hl).2 haccepts
  · intro order env t hl ht
    simp only [BatchRun.step] at ht
    split at ht
    · next horder =>
      cases ht
      exact (hinv.stop hl horder).2
    · cases ht

/-- Two events of one topic wait in their bucket until `stop`. -/
theorem batching_conserves_two_events :
    let event : Event := ⟨⟨.tcp, .batch, 7, 0, 0, 0, 0⟩, [112], [], [], 0⟩
    let env : BatchEnv := ⟨[], fun _ ↦ false, fun _ ↦ false⟩
    let s := ((BatchRun.initial 5 false ⟨none, none, []⟩).process event 1 env).process event 2 env
    (s.processor.buckets [112]).events.length = 2 ∧
    ∀ topic, ((s.stop [[112]] env).processor.buckets topic).events = [] := by
  intro event env s
  have hq : env.Quiet := fun _ ↦ ⟨rfl, rfl⟩
  have hs : (batching 5 false ⟨none, none, []⟩).ReachableWith BatchRun.Steady s :=
    .next (l := .process event 2 env)
      (.next (l := .process event 1 env) .start ⟨by decide, by decide, hq⟩ rfl)
      ⟨by decide, by decide, hq⟩ rfl
  have horder : [[112]].isPerm s.processor.topics = true := by decide +kernel
  have hstop : s.step (.stop [[112]] env) = some (s.stop [[112]] env) := by
    simp only [BatchRun.step, horder, if_true]
  exact ⟨by decide +kernel, (batching_conserves (by decide) hs).2.2.2 [[112]] env _ hq hstop⟩

/-- An event that is not accepted does not touch its bucket: an audit event of the first
nanosecond is still there a hundred seconds later, when one with an empty body is rejected. -/
theorem rejected_event_flushes_nothing :
    let event : Event := ⟨⟨.tcp, .batch, 7, 0, 0, 0, 0⟩, [97], [1], [], 0⟩
    let empty : Event := ⟨⟨.tcp, .batch, 8, 0, 0, 0, 0⟩, [97], [], [], 0⟩
    let env : BatchEnv := ⟨[([97], auditEventHandler)], fun _ ↦ false, fun _ ↦ false⟩
    let s := (BatchRun.initial 5 false ⟨none, none, []⟩).process event 1 env
    let now := 100 * 1000000000
    (batching 5 false ⟨none, none, []⟩).ReachableWith BatchRun.Steady s ∧
    s.Steady (.process empty now env) ∧ s.processor.dropEvents = false ∧
    ¬∀ a ∈ ((s.process empty now env).processor.buckets [97]).events,
      now < a.arrivedAt + 5 * 1000000000 := by
  intro event empty env s now
  have hq : env.Quiet := fun _ ↦ ⟨rfl, rfl⟩
  have hs : (batching 5 false ⟨none, none, []⟩).ReachableWith BatchRun.Steady s :=
    .next (l := .process event 1 env) .start ⟨by decide, by decide, hq⟩ rfl
  refine ⟨hs, ⟨by decide, by decide +kernel, hq⟩, by decide +kernel, fun hall ↦ ?_⟩
  have hmem : (⟨0, 1, event⟩ : Arrival) ∈
      ((s.process empty now env).processor.buckets [97]).events := by decide +kernel
  exact absurd (hall _ hmem) (by decide)

end EventStreamCore.Processor
