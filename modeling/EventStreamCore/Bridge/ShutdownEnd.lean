import EventStreamCore.Bridge.ShutdownProgress

/-!
# How long shutdown takes

How many steps the threads of the engine and the rest of `esccore_shutdown`,
`src/bridge/esccore.cpp:163–192`, take once their flags are cleared.
-/

namespace EventStreamCore.Bridge
open EventStreamCore.Lib EventStreamCore.Queues EventStreamCore.Events

section Prompt

variable (topicTable : Option TopicTable) (buffer : Fin realtimeCapacity.val → Item)

/-- With `isRunning_` cleared a processor thread runs out of steps. -/
theorem engine_pays_consumer (q : QueueId) :
    (engine topicTable buffer).Pays (fun s ↦ s.isRunning = false) (fun _ ↦ True)
      (fun _ l ↦ l.isConsumer q) fun s ↦ (s.consumers q).work where
  keeps s l t hr _ hs := (Engine.flags_step (l := l) hs).1 hr
  pays s l t hr _ hs := by
    by_cases hl : l.isConsumer q
    · cases l with
      | consumer q' dropEvents =>
        obtain rfl : q' = q := of_decide_eq_true hl
        obtain ⟨pc, hstep⟩ := Engine.stepConsumer_cases hs
        have hcloser : pc.work < (s.consumers q').work := by
          rcases hstep.closer with hlt | hset
          · exact hlt
          · rw [hr] at hset
            cases hset
        rw [hstep.consumers, Function.update_self, hl, Bool.toNat_true]
        exact hcloser
      | _ => cases hl
    · rw [Bool.not_eq_true] at hl
      simp only [(Engine.consumer_frame hl hs).1, hl, Bool.toNat_false, Nat.add_zero, Nat.le_refl]

/-- With `isRunning_` cleared a processor thread gives at most the event it is about to pop or
has popped to `process`. -/
theorem engine_pays_processed (q : QueueId) :
    (engine topicTable buffer).Pays (fun s ↦ s.isRunning = false) (fun _ ↦ True)
      (fun _ _ ↦ false) fun s ↦ (s.processed q).length + (s.consumers q).mayProcess.toNat where
  keeps s l t hr _ hs := (Engine.flags_step (l := l) hs).1 hr
  pays s l t hr _ hs := by
    by_cases hl : l.isConsumer q
    · cases l with
      | consumer q' dropEvents =>
        obtain rfl : q' = q := of_decide_eq_true hl
        obtain ⟨pc, hstep⟩ := Engine.stepConsumer_cases hs
        rw [hstep.consumers, Function.update_self]
        exact hstep.processed hr
      | _ => cases hl
    · rw [Bool.not_eq_true] at hl
      obtain ⟨hconsumers, hprocessed⟩ := Engine.consumer_frame hl hs
      simp only [hconsumers, hprocessed, Bool.toNat_false, Nat.add_zero, Nat.le_refl]

/-- With `running_` cleared the dispatch thread runs out of steps. -/
theorem engine_pays_dispatcher :
    (engine topicTable buffer).Pays (fun s ↦ s.running = false) (fun _ ↦ True)
      (fun _ l ↦ l.isDispatcher) Engine.loopWork where
  keeps s l t hr _ hs := (Engine.flags_step (l := l) hs).2 hr
  pays s l t hr _ hs := by
    by_cases hl : l.isDispatcher
    · cases l with
      | dispatcher timeout =>
        rcases Engine.stepLoop_work hs with hlt | hset
        · exact hlt
        · rw [hr] at hset
          cases hset
      | _ => cases hl
    · rw [Bool.not_eq_true] at hl
      obtain ⟨hloop, hdispatcher⟩ := Engine.loop_frame hl hs
      simp only [Engine.loopWork, hloop, hdispatcher, hl, Bool.toNat_false, Nat.add_zero,
        Nat.le_refl]

/-- With `running_` cleared the dispatch thread takes at most one more event. -/
theorem engine_pays_pop :
    (engine topicTable buffer).Pays (fun s ↦ s.running = false) (fun _ ↦ True)
      (fun s l ↦ s.atPop && l.isDispatcher) fun s ↦ s.atPop.toNat where
  keeps s l t hr _ hs := (Engine.flags_step (l := l) hs).2 hr
  pays s l t hr _ hs := by
    by_cases hl : l.isDispatcher
    · cases l with
      | dispatcher timeout =>
        -- the loop is at the check after the body is done, and then ends
        have hnot : t.atPop = false := by
          obtain ⟨-, rfl⟩ | ⟨-, pipe, -, rfl⟩ := Engine.stepLoop_cases hs
          · simp [Engine.atPop, hr]
          · cases hidle : pipe.dispatcher.isIdle <;> simp [Engine.atPop, hidle]
        rw [hnot, hl, Bool.and_true, Bool.toNat_false, Nat.zero_add]
      | _ => cases hl
    · rw [Bool.not_eq_true] at hl
      obtain ⟨hloop, hdispatcher⟩ := Engine.loop_frame hl hs
      simp only [Engine.atPop, hloop, hdispatcher, hl, Bool.and_false, Bool.toNat_false,
        Nat.add_zero, Nat.le_refl]

end Prompt

/-- Between two looks at `isRunning_` a processor thread takes at most five steps. -/
theorem ConsumerPc.work_le (pc : ConsumerPc) : pc.work ≤ 5 := by
  cases pc <;> simp [ConsumerPc.work]

/-- Between two looks at `running_` the dispatch thread takes at most thirty steps. -/
theorem Engine.loopWork_le (s : Engine) : s.loopWork ≤ 30 := by
  have hwork : s.pipe.dispatcher.work ≤ 27 := by
    cases s.pipe.dispatcher with
    | push item q retryCount op =>
      have := op.rank_bounds
      simp only [DispatcherPc.work, Dispatcher.maxRetries]
      omega
    | _ => simp [DispatcherPc.work]
  unfold Engine.loopWork
  split
  · omega
  · omega
  · split <;> omega

/-- Every reachable state satisfies the invariant of the stop sequence. -/
theorem Engine.Sound.of_reachable {topicTable : Option TopicTable}
    {buffer : Fin realtimeCapacity.val → Item} {s : Engine}
    (h : (engine topicTable buffer).Reachable s) : s.Sound :=
  h.invariant (Engine.sound_initial buffer) fun _ _ _ hi hs ↦ hi.step hs

/-- Shutdown is prompt in every run, however the threads are scheduled and whatever still comes
in: once the stop sequence has cleared `isRunning_`, each processor thread takes at most five more
steps of its loop and processes at most one more event, and once it has cleared `running_`, the
dispatch thread takes at most thirty more steps and at most one more event from the inbound
queue. -/
theorem shutdown_prompt (topicTable : Option TopicTable)
    (buffer : Fin realtimeCapacity.val → Item) (s t : Engine)
    (h : (engine topicTable buffer).Reachable s) (ls : List EngineLabel)
    (hr : (engine topicTable buffer).run s ls = some t) :
    (s.shutdown.isRunningCleared → ∀ q,
      (engine topicTable buffer).countRun (fun _ l ↦ l.isConsumer q) s ls ≤ 5 ∧
      (t.processed q).length ≤ (s.processed q).length + 1) ∧
    (s.shutdown.runningCleared →
      (engine topicTable buffer).countRun (fun _ l ↦ l.isDispatcher) s ls ≤ 30 ∧
      (engine topicTable buffer).countRun (fun s l ↦ s.atPop && l.isDispatcher) s ls ≤ 1) := by
  have hsound := Engine.Sound.of_reachable h
  have hall : ∀ l ∈ ls, True := fun _ _ ↦ trivial
  constructor
  · intro hcleared q
    have hflag := hsound.isRunning hcleared
    have hsteps := ((engine_pays_consumer topicTable buffer q).run hflag hall hr).2
    have hprocessed := ((engine_pays_processed topicTable buffer q).run hflag hall hr).2
    have hwork := (s.consumers q).work_le
    have hmay := Bool.toNat_le (s.consumers q).mayProcess
    constructor
    · omega
    · omega
  · intro hcleared
    have hflag := hsound.running hcleared
    have hsteps := ((engine_pays_dispatcher topicTable buffer).run hflag hall hr).2
    have hpops := ((engine_pays_pop topicTable buffer).run hflag hall hr).2
    have hwork := s.loopWork_le
    have hpop := Bool.toNat_le s.atPop
    constructor
    · omega
    · omega

/-- The REALTIME thread finds `isRunning_` cleared and leaves its loop. -/
theorem shutdown_prompt_realtime : ∃ s t : Engine,
    (engine none fun _ ↦ ⟨0, ⟨⟨.tcp, .batch, 0, 0, 0, 0, 0⟩, [], [], [], 0⟩⟩).Reachable s ∧
    s.shutdown = .joinRealtime ∧
    (engine none fun _ ↦ ⟨0, ⟨⟨.tcp, .batch, 0, 0, 0, 0, 0⟩, [], [], [], 0⟩⟩).run s
      [.consumer .realtime false, .shutdown] = some t ∧
    (t.processed .realtime).length ≤ (s.processed .realtime).length + 1 := by
  let m := engine none fun _ ↦ ⟨0, ⟨⟨.tcp, .batch, 0, 0, 0, 0, 0⟩, [], [], [], 0⟩⟩
  have hrun : (m.run m.start (List.replicate 4 .shutdown)).map Engine.shutdown =
      some .joinRealtime := by
    decide +kernel
  obtain ⟨s, hrun, hs⟩ := Option.map_eq_some_iff.mp hrun
  have hrest : ((m.run m.start (List.replicate 4 .shutdown)).bind fun s ↦
      m.run s [.consumer .realtime false, .shutdown]).isSome := by
    decide +kernel
  rw [hrun] at hrest
  obtain ⟨t, ht⟩ := Option.isSome_iff_exists.mp hrest
  have hreach := Machine.Reachable.run .start hrun
  exact ⟨s, t, hreach, hs, ht,
    ((shutdown_prompt _ _ s t hreach _ ht).1 (by rw [hs]; rfl) .realtime).2⟩

end EventStreamCore.Bridge
