import EventStreamCore.Processor.FlushVerdicts

/-!
# When an event gets one verdict

The books of all sequences of calls on the three processors, `src/core/processor/realtime.cpp`,
`src/core/processor/transactional.cpp` and `src/core/processor/batch.cpp`, and the events that get
one verdict and the events that get two.
-/

namespace EventStreamCore.Processor
open EventStreamCore.Lib EventStreamCore.Events EventStreamCore.Storage

/-- A call of the batch processor leaves a dead letter queue where there was one. -/
private theorem foldl_apply_dlq (calls : List BatchCall) {io : Sinks} (h : io.dlq.isSome) :
    (calls.foldl BatchCall.apply io).dlq.isSome := by
  induction calls generalizing io with
  | nil => exact h
  | cons call calls ih =>
    refine ih ?_
    cases call with
    | push a => simpa [BatchCall.apply, Sinks.push] using h
    | storeEvent a =>
      obtain ⟨io', hstore, hsame, -⟩ := io.storeEvent_quiet a.event
      rw [BatchCall.apply, hstore, Option.getD_some, hsame]
      exact h
    | _ => exact h

/-- The invariant of the books. -/
structure Ledger.Inv (s : Ledger) : Prop where
  booked : Booked s.batch.held s.arrivals s.fates s.counts s.marks
  dlq : s.io.dlq.isSome

namespace Ledger.Inv

variable {s t : Ledger}

/-- A quiet call of the realtime or the transactional processor. -/
private theorem settle (h : s.Inv) {fate : Fate} (hfate : fate ≠ .waiting) {m m' : Metrics}
    {io : Sinks} (hbooks : Books fate m m' s.io io) :
    Booked s.batch.held (s.arrivals + 1) (Function.update s.fates s.arrivals fate)
      (Function.update s.counts s.arrivals (countsSince m' m))
      (s.marks ++ io.since s.io s.arrivals) := by
  rw [hbooks.counts]
  exact h.booked.settle hfate (hbooks.marks s.arrivals)

/-- Every quiet call keeps the books. -/
theorem step {l : LedgerLabel} (h : s.Inv) (hg : s.Quiet l) (ht : s.step l = some t) : t.Inv := by
  cases l with
  | realtime c =>
    cases ht
    have hbooks := s.realtime.process_books h.dlq hg
    refine ⟨h.settle ?_ hbooks, hbooks.dlq⟩
    unfold RealtimeProcessor.fate
    split
    · exact nofun
    · split <;> exact nofun
  | transactional c =>
    cases ht
    have hbooks := s.transactional.process_books h.dlq hg
    refine ⟨h.settle ?_ hbooks, hbooks.dlq⟩
    unfold TransactionalProcessor.fate
    split
    · exact nofun
    · split <;> exact nofun
  | batch event now env =>
    cases ht
    exact ⟨h.booked.processBatch h.dlq hg rfl, foldl_apply_dlq _ h.dlq⟩
  | stop order env =>
    simp only [Ledger.step] at ht
    split at ht <;> cases ht
    exact ⟨h.booked.stopBatch h.dlq hg order, foldl_apply_dlq _ h.dlq⟩
  | pause paused =>
    cases ht
    exact ⟨h.booked, h.dlq⟩
  | dropBatchEvents dropEvents =>
    cases ht
    exact ⟨h.booked, h.dlq⟩

end Ledger.Inv

/-- In every sequence of calls without an exception, once all buckets are flushed, counters, dead
letter queue and notifications agree on an event exactly when it was not a realtime event that was
accepted but too late, nor a batch event that its handler refused at the flush. -/
theorem one_verdict_iff (maxProcessingMs : Int) (maxRetries window : Nat) (eventBus : Bool)
    (storage : Option StorageEngine) (s : Ledger)
    (h : (ledger maxProcessingMs maxRetries window eventBus storage).ReachableWith Ledger.Quiet s)
    (hflushed : ∀ topic, (s.batch.buckets topic).events = []) (k : Nat) :
    s.OneVerdict k ↔ s.fates k ≠ .late ∧ s.fates k ≠ .refused := by
  have hinv : s.Inv := by
    refine Machine.ReachableWith.invariant ?_ (fun _ _ _ hs hg ht ↦ hs.step hg ht) h
    refine ⟨⟨⟨fun k ↦ rfl, fun m k ↦ rfl⟩, fun k _ ↦ rfl, ?_, fun _ ↦ List.nodup_nil, ?_, nofun⟩,
      rfl⟩
    · intro topic a ha
      exact absurd ha List.not_mem_nil
    · intro topic topic' a ha
      exact absurd ha List.not_mem_nil
  have hwaiting : s.fates k ≠ .waiting := by
    intro hk
    obtain ⟨topic, hmem⟩ := hinv.booked.placed k hk
    rw [BatchProcessor.held, hflushed] at hmem
    cases hmem
  rw [Ledger.OneVerdict, hinv.booked.agree.counts]
  simp only [Ledger.marked, hinv.booked.agree.marks]
  cases hfate : s.fates k with
  | waiting => exact absurd hfate hwaiting
  | _ => simp [Fate.counts, Fate.marks]

/-- A batch event that waits for its flush and is processed there. -/
theorem one_verdict_iff_flushed :
    let event : Event := ⟨⟨.tcp, .batch, 1, 0, 0, 1, 0⟩, [97], [], [], 0⟩
    let env : BatchEnv := ⟨[], fun _ ↦ false, fun _ ↦ false⟩
    let m := ledger 5 3 60 true none
    let s := (m.start.callBatch event 1 env).callStop [[97]] env
    m.ReachableWith Ledger.Quiet s ∧ s.fates 0 = .processed ∧ s.counts 0 = (1, 0) ∧
      s.OneVerdict 0 := by
  intro event env m s
  have hquiet : env.Quiet := fun _ ↦ ⟨rfl, rfl⟩
  have hstop : m.step (m.start.callBatch event 1 env) (.stop [[97]] env) = some s := by
    simp only [m, ledger, Ledger.step]
    rw [if_pos (by decide +kernel)]
    rfl
  have hreach : m.ReachableWith Ledger.Quiet s :=
    .next (.next (l := .batch event 1 env) .start hquiet rfl) (l := .stop [[97]] env) hquiet hstop
  have hflushed : ∀ topic, (s.batch.buckets topic).events = [] := by
    intro topic
    have hbuckets : s.batch.buckets = Function.update
        (Function.update (fun _ ↦ ⟨[], 0⟩) [97] ⟨[⟨0, 1, event⟩], 1⟩) [97] ⟨[], 1⟩ := rfl
    by_cases htopic : topic = [97]
    · rw [hbuckets, htopic, Function.update_self]
    · rw [hbuckets, Function.update_of_ne htopic, Function.update_of_ne htopic]
  have hfate : s.fates 0 = .processed := by decide +kernel
  refine ⟨hreach, hfate, by decide +kernel, ?_⟩
  rw [one_verdict_iff 5 3 60 true none s hreach hflushed 0, hfate]
  exact ⟨nofun, nofun⟩

/-- A realtime event that succeeds too late is counted as processed and as dropped, and a batch
event that its handler drops at the flush is counted as processed only. -/
theorem two_verdicts :
    let event : Event := ⟨⟨.tcp, .batch, 1, 0, 0, 1, 0⟩, [97], [], [], 0⟩
    let env : BatchEnv := ⟨[([97], ⟨fun _ ↦ .ok, fun _ ↦ .ok, fun _ _ ↦ ⟨.drop, .info, ""⟩⟩)],
      fun _ ↦ false, fun _ ↦ false⟩
    let m := ledger 5 3 60 true none
    let s := ((m.start.callRealtime ⟨event, [], 1, 1, 1, 6, false⟩).callBatch event 1 env).callStop
      [[97]] env
    m.ReachableWith Ledger.Quiet s ∧ (∀ topic, (s.batch.buckets topic).events = []) ∧
      s.counts 0 = (1, 1) ∧ s.marked .notedDropped 0 = 1 ∧ ¬s.OneVerdict 0 ∧
      s.counts 1 = (1, 0) ∧ s.marked .notedDropped 1 = 1 ∧ ¬s.OneVerdict 1 := by
  intro event env m s
  have hquiet : env.Quiet := fun _ ↦ ⟨rfl, rfl⟩
  have hstop : m.step
      ((m.start.callRealtime ⟨event, [], 1, 1, 1, 6, false⟩).callBatch event 1 env)
      (.stop [[97]] env) = some s := by
    simp only [m, ledger, Ledger.step]
    rw [if_pos (by decide +kernel)]
    rfl
  have hreach : m.ReachableWith Ledger.Quiet s :=
    .next (.next (.next (l := .realtime ⟨event, [], 1, 1, 1, 6, false⟩) .start rfl rfl)
      (l := .batch event 1 env) hquiet rfl) (l := .stop [[97]] env) hquiet hstop
  have hlate : s.counts 0 = (1, 1) := by decide +kernel
  have hlateNote : s.marked .notedDropped 0 = 1 := by decide +kernel
  have hrefused : s.counts 1 = (1, 0) := by decide +kernel
  have hrefusedNote : s.marked .notedDropped 1 = 1 := by decide +kernel
  refine ⟨hreach, fun topic ↦ ?_, hlate, hlateNote, fun h ↦ ?_, hrefused, hrefusedNote, fun h ↦ ?_⟩
  · have hbuckets : s.batch.buckets = Function.update
        (Function.update (fun _ ↦ ⟨[], 0⟩) [97] ⟨[⟨1, 1, event⟩], 1⟩) [97] ⟨[], 1⟩ := rfl
    by_cases htopic : topic = [97]
    · rw [hbuckets, htopic, Function.update_self]
    · rw [hbuckets, Function.update_of_ne htopic, Function.update_of_ne htopic]
  · have hcounts := (h.2.1 (by rw [hlateNote]; decide)).1
    rw [hlate] at hcounts
    exact absurd hcounts (by decide)
  · have hcounts := (h.2.1 (by rw [hrefusedNote]; decide)).1
    rw [hrefused] at hcounts
    exact absurd hcounts (by decide)

end EventStreamCore.Processor
