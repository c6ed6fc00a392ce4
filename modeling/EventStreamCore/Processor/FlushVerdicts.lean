import EventStreamCore.Processor.Verdicts

/-!
# What a flush books

`flushBucketLocked`, `src/core/processor/batch.cpp:104–127`, and the calls of `BatchProcessor` that
flush: `process`, `src/core/processor/batch.cpp:41–102`, and `stop`, lines 23–31.
-/

namespace EventStreamCore.Processor
open EventStreamCore.Lib EventStreamCore.Events EventStreamCore.Storage

/-- The events in the buckets. -/
def BatchProcessor.held (p : BatchProcessor) (topic : Bytes) : List Arrival :=
  (p.buckets topic).events

theorem BatchProcessor.held_putBucket (p : BatchProcessor) (topic : Bytes) (bucket : TopicBucket) :
    (p.putBucket topic bucket).held = Function.update p.held topic bucket.events := by
  funext other
  by_cases h : other = topic
  · subst h
    simp only [held, putBucket, Function.update_self]
  · simp only [held, putBucket, Function.update_of_ne h]

/-- A flush leaves the fates of other events alone. -/
theorem flushFates_of_not_mem (handler : EventHandler) (i : Nat) {events : List Arrival}
    (fates : Nat → Fate) {k : Nat} (h : k ∉ events.map Arrival.ticket) :
    flushFates handler i events fates k = fates k := by
  induction events generalizing i fates with
  | nil => rfl
  | cons a rest ih =>
    rw [List.map_cons, List.mem_cons, not_or] at h
    rw [flushFates, ih _ _ h.2, Function.update_of_ne h.1]

/-- No event of a flushed bucket waits any longer. -/
theorem flushFates_of_mem (handler : EventHandler) (i : Nat) {events : List Arrival}
    (fates : Nat → Fate) {k : Nat} (h : k ∈ events.map Arrival.ticket) :
    flushFates handler i events fates k ≠ .waiting := by
  induction events generalizing i fates with
  | nil => cases h
  | cons a rest ih =>
    rw [flushFates]
    by_cases hrest : k ∈ rest.map Arrival.ticket
    · exact ih _ _ hrest
    · rw [flushFates_of_not_mem handler _ _ hrest]
      obtain rfl := (List.mem_cons.mp h).resolve_right hrest
      rw [Function.update_self]
      split <;> exact nofun

/-- The counters and marks are those of the fates. -/
structure Agree (fates : Nat → Fate) (counts : Nat → UInt64 × UInt64) (marks : List (Mark × Nat)) :
    Prop where
  counts : ∀ k, counts k = (fates k).counts
  marks : ∀ m k, marks.count (m, k) = (fates k).marks m

/-- The books of one more event. -/
private theorem Agree.book {fates : Nat → Fate} {counts : Nat → UInt64 × UInt64}
    {marks more : List (Mark × Nat)} (h : Agree fates counts marks) {k : Nat} {fate : Fate}
    (hnone : ∀ m, (fates k).marks m = 0) (hmore : BooksOf more k fate) :
    Agree (Function.update fates k fate) (Function.update counts k fate.counts)
      (marks ++ more) := by
  refine ⟨fun j ↦ ?_, fun m j ↦ ?_⟩
  · by_cases hj : j = k
    · rw [hj, Function.update_self, Function.update_self]
    · rw [Function.update_of_ne hj, Function.update_of_ne hj]
      exact h.counts j
  · rw [List.count_append, hmore, h.marks]
    by_cases hj : j = k
    · rw [hj, if_pos rfl, Function.update_self, hnone, Nat.zero_add]
    · rw [if_neg hj, Function.update_of_ne hj, Nat.add_zero]

theorem flushEvent_books {io : Sinks} (hdlq : io.dlq.isSome) {env : BatchEnv}
    (hquiet : env.Quiet) (handler : EventHandler) (i : Nat) (a : Arrival) :
    (BatchProcessor.flushEvent io env handler i a).2 = .returned ∧
    BooksOf ((BatchProcessor.flushEvent io env handler i a).1.filterMap BatchCall.mark) a.ticket
      (if (handler.handle a.event i).outcome.accepts then .processed else .refused) := by
  have hcalls : (BatchCall.handle a ::
      (if io.storage.isSome then [BatchCall.storeEvent a] else []) ++
      [BatchCall.notifyProcessed a]).filterMap BatchCall.mark = [(.notedProcessed, a.ticket)] := by
    split <;> rfl
  unfold BatchProcessor.flushEvent
  rw [(hquiet a).1, if_neg (by decide)]
  dsimp only
  cases hout : (handler.handle a.event i).outcome with
  | fail =>
    rw [if_pos hdlq]
    exact ⟨rfl, BooksOf.notedDropped (.inr (.inr rfl))⟩
  | drop =>
    rw [if_pos hdlq]
    exact ⟨rfl, BooksOf.notedDropped (.inr (.inr rfl))⟩
  | _ =>
    rw [(hquiet a).2]
    dsimp only
    rw [if_neg fun h ↦ absurd h.2 (by decide)]
    refine ⟨rfl, ?_⟩
    rw [hcalls]
    exact BooksOf.notedProcessed

/-- The loop of a flush books every event once. -/
theorem flushEvents_books {io : Sinks} (hdlq : io.dlq.isSome) {env : BatchEnv}
    (hquiet : env.Quiet) (handler : EventHandler) (i : Nat) {events : List Arrival}
    {fates : Nat → Fate} {counts : Nat → UInt64 × UInt64} {marks : List (Mark × Nat)}
    (h : Agree fates counts marks) (hwaiting : ∀ a ∈ events, fates a.ticket = .waiting)
    (hnodup : (events.map Arrival.ticket).Nodup) :
    (BatchProcessor.flushEvents io env handler i events).2 = .returned ∧
    Agree (flushFates handler i events fates) counts
      (marks ++ (BatchProcessor.flushEvents io env handler i events).1.filterMap
        BatchCall.mark) := by
  induction events generalizing i fates marks with
  | nil =>
    rw [BatchProcessor.flushEvents, List.filterMap_nil, List.append_nil]
    exact ⟨rfl, h⟩
  | cons a rest ih =>
    rw [List.map_cons, List.nodup_cons] at hnodup
    have ha := hwaiting a List.mem_cons_self
    obtain ⟨hreturned, hbooks⟩ := flushEvent_books hdlq hquiet handler i a
    have hagree := h.book (fun m ↦ by rw [ha]; rfl) hbooks
    -- the event was counted when it went into the bucket
    have hcounts : Function.update counts a.ticket
        (if (handler.handle a.event i).outcome.accepts then Fate.processed else .refused).counts =
          counts := by
      rw [Function.update_eq_self_iff, h.counts, ha]
      split <;> rfl
    rw [hcounts] at hagree
    have hothers : ∀ b ∈ rest, Function.update fates a.ticket
        (if (handler.handle a.event i).outcome.accepts then Fate.processed else .refused)
          b.ticket = .waiting := by
      intro b hb
      have hne : b.ticket ≠ a.ticket := fun he ↦ hnodup.1 (he ▸ List.mem_map_of_mem hb)
      rw [Function.update_of_ne hne]
      exact hwaiting b (List.mem_cons_of_mem _ hb)
    obtain ⟨hrest, hall⟩ := ih (i + 1) hagree hothers hnodup.2
    rw [BatchProcessor.flushEvents]
    cases hround : BatchProcessor.flushEvent io env handler i a with
    | mk calls outcome =>
      rw [hround] at hreturned hall
      dsimp only at hreturned hall
      subst hreturned
      refine ⟨hrest, ?_⟩
      rw [flushFates, List.filterMap_append, ← List.append_assoc]
      exact hall

/-- The books agree with the fates, events that were not yet given have left no trace, and the
events waiting are those in the buckets, each in one place. -/
structure Booked (held : Bytes → List Arrival) (arrivals : Nat) (fates : Nat → Fate)
    (counts : Nat → UInt64 × UInt64) (marks : List (Mark × Nat)) : Prop where
  agree : Agree fates counts marks
  unseen : ∀ k, arrivals ≤ k → fates k = .silent
  waiting : ∀ topic, ∀ a ∈ held topic, fates a.ticket = .waiting
  nodup : ∀ topic, ((held topic).map Arrival.ticket).Nodup
  apart : ∀ topic topic', ∀ a ∈ held topic, ∀ b ∈ held topic', a.ticket = b.ticket → topic = topic'
  placed : ∀ k, fates k = .waiting → ∃ topic, k ∈ (held topic).map Arrival.ticket

namespace Booked

variable {held : Bytes → List Arrival} {n : Nat} {fates : Nat → Fate}
  {counts : Nat → UInt64 × UInt64} {marks : List (Mark × Nat)}

/-- An event in a bucket was given before. -/
private theorem ticket_lt (h : Booked held n fates counts marks) {topic : Bytes} {a : Arrival}
    (ha : a ∈ held topic) : a.ticket < n := by
  refine Nat.lt_of_not_le fun hle ↦ ?_
  have hwaiting := h.waiting topic a ha
  rw [h.unseen _ hle] at hwaiting
  cases hwaiting

/-- The next event meets a fate at once. -/
theorem settle (h : Booked held n fates counts marks) {fate : Fate}
    (hfate : fate ≠ .waiting) {more : List (Mark × Nat)} (hmore : BooksOf more n fate) :
    Booked held (n + 1) (Function.update fates n fate) (Function.update counts n fate.counts)
      (marks ++ more) where
  agree := h.agree.book (fun m ↦ by rw [h.unseen n (Nat.le_refl n)]; rfl) hmore
  unseen k hk := by
    rw [Function.update_of_ne (by omega)]
    exact h.unseen k (by omega)
  waiting topic a ha := by
    rw [Function.update_of_ne (Nat.ne_of_lt (h.ticket_lt ha))]
    exact h.waiting topic a ha
  nodup := h.nodup
  apart := h.apart
  placed k hk := by
    by_cases hkn : k = n
    · rw [hkn, Function.update_self] at hk
      exact absurd hk hfate
    · rw [Function.update_of_ne hkn] at hk
      exact h.placed k hk

/-- The next event goes into a bucket. -/
private theorem enter (h : Booked held n fates counts marks) (topic : Bytes) {a : Arrival}
    (ha : a.ticket = n) :
    Booked (Function.update held topic (held topic ++ [a])) (n + 1)
      (Function.update fates n .waiting) (Function.update counts n (1, 0)) marks := by
  have hmem : ∀ topic', ∀ b ∈ Function.update held topic (held topic ++ [a]) topic',
      b ∈ held topic' ∨ topic' = topic ∧ b = a := by
    intro topic' b hb
    by_cases ht : topic' = topic
    · subst ht
      rw [Function.update_self, List.mem_append, List.mem_singleton] at hb
      exact hb.imp_right fun hb ↦ ⟨rfl, hb⟩
    · rw [Function.update_of_ne ht] at hb
      exact .inl hb
  have hfresh : ∀ topic', ∀ b ∈ held topic', b.ticket ≠ n :=
    fun topic' b hb ↦ Nat.ne_of_lt (h.ticket_lt hb)
  refine ⟨?_, fun k hk ↦ ?_, fun topic' b hb ↦ ?_, fun topic' ↦ ?_, fun t₁ t₂ b hb c hc he ↦ ?_,
    fun k hk ↦ ?_⟩
  · have hnil : BooksOf [] n .waiting := BooksOf.nil (.inr rfl)
    have hbook := h.agree.book (fun m ↦ by rw [h.unseen n (Nat.le_refl n)]; rfl) hnil
    rw [List.append_nil] at hbook
    exact hbook
  · rw [Function.update_of_ne (by omega)]
    exact h.unseen k (by omega)
  · obtain hb | ⟨-, rfl⟩ := hmem topic' b hb
    · rw [Function.update_of_ne (hfresh topic' b hb)]
      exact h.waiting topic' b hb
    · rw [ha, Function.update_self]
  · by_cases ht : topic' = topic
    · subst ht
      rw [Function.update_self, List.map_append, List.map_singleton, List.nodup_append]
      refine ⟨h.nodup topic', by simp, fun x hx y hy ↦ ?_⟩
      obtain ⟨b, hb, rfl⟩ := List.mem_map.mp hx
      rw [List.mem_singleton.mp hy, ha]
      exact hfresh topic' b hb
    · rw [Function.update_of_ne ht]
      exact h.nodup topic'
  · obtain hold | ⟨htopic, hnew⟩ := hmem t₁ b hb
    · obtain hold' | ⟨-, hnew'⟩ := hmem t₂ c hc
      · exact h.apart t₁ t₂ b hold c hold' he
      · rw [hnew', ha] at he
        exact absurd he (hfresh t₁ b hold)
    · obtain hold' | ⟨htopic', -⟩ := hmem t₂ c hc
      · rw [hnew, ha] at he
        exact absurd he.symm (hfresh t₂ c hold')
      · exact htopic.trans htopic'.symm
  · by_cases hkn : k = n
    · refine ⟨topic, ?_⟩
      rw [Function.update_self, hkn, ← ha]
      exact List.mem_map_of_mem (List.mem_append_right _ List.mem_cons_self)
    · rw [Function.update_of_ne hkn] at hk
      obtain ⟨topic', hk⟩ := h.placed k hk
      refine ⟨topic', ?_⟩
      by_cases ht : topic' = topic
      · subst ht
        rw [Function.update_self, List.map_append]
        exact List.mem_append_left _ hk
      · rwa [Function.update_of_ne ht]

/-- A flush without an exception. -/
theorem flushBucketLocked_eq {io : Sinks} {env : BatchEnv} {topic : Bytes}
    {bucket : TopicBucket} (h : (BatchProcessor.flushEvents io env
      (EventHandlerRegistry.getOrDefault env.handlers topic) 1 bucket.events).2 = .returned) :
    BatchProcessor.flushBucketLocked io env topic bucket =
      ({ bucket with events := [] }, (BatchProcessor.flushEvents io env
        (EventHandlerRegistry.getOrDefault env.handlers topic) 1 bucket.events).1, .returned) := by
  unfold BatchProcessor.flushBucketLocked
  split
  · next hempty =>
    obtain ⟨events, lastFlushTime⟩ := bucket
    obtain rfl : events = [] := List.isEmpty_iff.mp hempty
    rfl
  · dsimp only
    split
    · next calls hloop =>
      rw [hloop] at h
      cases h
    · next calls hloop => rw [hloop]

/-- A bucket is flushed. -/
private theorem flush (h : Booked held n fates counts marks) {io : Sinks} (hdlq : io.dlq.isSome)
    {env : BatchEnv} (hquiet : env.Quiet) (topic : Bytes) (lastFlushTime : Nat) :
    ∃ calls, BatchProcessor.flushBucketLocked io env topic ⟨held topic, lastFlushTime⟩ =
        (⟨[], lastFlushTime⟩, calls, .returned) ∧
      Booked (Function.update held topic []) n
        (flushFates (EventHandlerRegistry.getOrDefault env.handlers topic) 1 (held topic) fates)
        counts (marks ++ calls.filterMap BatchCall.mark) := by
  obtain ⟨hreturned, hagree⟩ :=
    flushEvents_books hdlq hquiet (EventHandlerRegistry.getOrDefault env.handlers topic) 1 h.agree
      (h.waiting topic) (h.nodup topic)
  refine ⟨_, flushBucketLocked_eq hreturned, ?_⟩
  have hsame : ∀ {k}, k ∉ (held topic).map Arrival.ticket →
      flushFates (EventHandlerRegistry.getOrDefault env.handlers topic) 1 (held topic) fates k =
        fates k :=
    fun hk ↦ flushFates_of_not_mem _ 1 fates hk
  have hmem : ∀ topic', ∀ a ∈ Function.update held topic [] topic',
      topic' ≠ topic ∧ a ∈ held topic' := by
    intro topic' a ha
    by_cases ht : topic' = topic
    · rw [ht, Function.update_self] at ha
      cases ha
    · rw [Function.update_of_ne ht] at ha
      exact ⟨ht, ha⟩
  refine ⟨hagree, fun k hk ↦ ?_, fun topic' a ha ↦ ?_, fun topic' ↦ ?_,
    fun t₁ t₂ a ha b hb he ↦ ?_, fun k hk ↦ ?_⟩
  · rw [hsame]
    · exact h.unseen k hk
    · rintro hk'
      obtain ⟨a, ha, rfl⟩ := List.mem_map.mp hk'
      exact absurd (h.ticket_lt ha) (Nat.not_lt.mpr hk)
  · obtain ⟨hne, ha⟩ := hmem topic' a ha
    rw [hsame]
    · exact h.waiting topic' a ha
    · intro hk
      obtain ⟨b, hb, he⟩ := List.mem_map.mp hk
      exact hne (h.apart topic' topic a ha b hb he.symm)
  · by_cases ht : topic' = topic
    · rw [ht, Function.update_self]
      exact List.nodup_nil
    · rw [Function.update_of_ne ht]
      exact h.nodup topic'
  · exact h.apart t₁ t₂ a (hmem t₁ a ha).2 b (hmem t₂ b hb).2 he
  · have hout : k ∉ (held topic).map Arrival.ticket :=
      fun hk' ↦ flushFates_of_mem _ 1 fates hk' hk
    rw [hsame hout] at hk
    obtain ⟨topic', hk⟩ := h.placed k hk
    refine ⟨topic', ?_⟩
    by_cases ht : topic' = topic
    · exact absurd (ht ▸ hk) hout
    · rwa [Function.update_of_ne ht]

/-- An event is taken into its bucket, which is flushed if that is due. -/
private theorem bucketEvent {p : BatchProcessor} (h : Booked p.held n fates counts marks)
    {io : Sinks} (hdlq : io.dlq.isSome) {env : BatchEnv} (hquiet : env.Quiet) {a : Arrival}
    (ha : a.ticket = n) (haccepts : p.accepts env a.event = true) :
    Booked (p.bucketEvent io env a).1.held (n + 1) (p.fates env a fates)
      (Function.update counts n (countsSince (p.bucketEvent io env a).1.metrics p.metrics))
      (marks ++ (p.bucketEvent io env a).2.1.filterMap BatchCall.mark) := by
  have henter := h.enter a.event.topic ha
  rw [← countsSince_processed p.metrics] at henter
  rw [BatchProcessor.fates, if_pos haccepts, ha]
  unfold BatchProcessor.bucketEvent
  dsimp only
  split
  · next hfirst =>
    have hdue : p.due a = false := by simp [BatchProcessor.due, hfirst]
    rw [hdue, if_neg (by decide), BatchProcessor.held_putBucket, List.filterMap_nil,
      List.append_nil]
    exact henter
  · next hlater =>
    split
    · next hnow =>
      have hdue : p.due a = true := decide_eq_true ⟨hlater, hnow⟩
      obtain ⟨calls, hflush, hbooked⟩ := henter.flush hdlq hquiet a.event.topic
        (p.buckets a.event.topic).lastFlushTime
      rw [Function.update_self] at hflush
      rw [Function.update_idem, Function.update_self] at hbooked
      rw [hdue, if_pos rfl]
      rw [show (p.buckets a.event.topic).events = p.held a.event.topic from rfl, hflush]
      dsimp only
      rw [BatchProcessor.held_putBucket]
      exact hbooked
    · next hsoon =>
      have hdue : p.due a = false := decide_eq_false fun h ↦ hsoon h.2
      rw [hdue, if_neg (by decide), BatchProcessor.held_putBucket, List.filterMap_nil,
        List.append_nil]
      exact henter

/-- A call of `BatchProcessor::process`. -/
theorem processBatch {p : BatchProcessor} (h : Booked p.held n fates counts marks)
    {io : Sinks} (hdlq : io.dlq.isSome) {env : BatchEnv} (hquiet : env.Quiet) {a : Arrival}
    (ha : a.ticket = n) :
    Booked (p.process io env a).1.held (n + 1) (p.fates env a fates)
      (Function.update counts n (countsSince (p.process io env a).1.metrics p.metrics))
      (marks ++ (p.process io env a).2.1.filterMap BatchCall.mark) := by
  obtain ⟨hrefuses, bus, reason, hbus, hp⟩ | ⟨haccepts, hp⟩ := p.process_cases io env a
  · rw [hp, BatchProcessor.fates, hrefuses, ha, if_pos hdlq, if_neg Bool.false_ne_true]
    have hmarks : ([BatchCall.push a] ++ bus ++ [BatchCall.notifyDropped a reason]).filterMap
        BatchCall.mark = [(.pushed, n), (.notedDropped, n)] := by
      obtain rfl | rfl := hbus
      · rw [← ha]
        rfl
      · rw [← ha]
        rfl
    dsimp only
    rw [hmarks, countsSince_dropped]
    have hdropped : BooksOf [(.pushed, n), (.notedDropped, n)] n .dropped :=
      BooksOf.notedDropped (.inl rfl)
    exact h.settle (by decide) hdropped
  · rw [hp]
    exact h.bucketEvent hdlq hquiet ha haccepts

/-- A call of `BatchProcessor::stop`. -/
theorem stopBatch {p : BatchProcessor} (h : Booked p.held n fates counts marks)
    {io : Sinks} (hdlq : io.dlq.isSome) {env : BatchEnv} (hquiet : env.Quiet) (order : List Bytes) :
    Booked (p.flushAll io env order).1.held n (p.stopFates env order fates) counts
      (marks ++ (p.flushAll io env order).2.1.filterMap BatchCall.mark) := by
  induction order generalizing p fates marks with
  | nil =>
    rw [BatchProcessor.flushAll, List.filterMap_nil, List.append_nil]
    exact h
  | cons topic rest ih =>
    obtain ⟨calls, hflush, hbooked⟩ := h.flush hdlq hquiet topic
      (p.buckets topic).lastFlushTime
    rw [← p.held_putBucket topic ⟨[], (p.buckets topic).lastFlushTime⟩] at hbooked
    have hrest := ih hbooked
    change BatchProcessor.flushBucketLocked io env topic (p.buckets topic) = _ at hflush
    rw [BatchProcessor.flushAll, hflush, BatchProcessor.stopFates]
    dsimp only
    rw [List.filterMap_append, ← List.append_assoc]
    exact hrest

end Booked

end EventStreamCore.Processor
