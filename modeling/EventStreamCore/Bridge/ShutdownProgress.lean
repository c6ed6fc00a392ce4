import EventStreamCore.Bridge.Shutdown
import EventStreamCore.Events.Drain

/-!
# The stop sequence comes to an end

What keeps the joins of `esccore_shutdown`, `src/bridge/esccore.cpp:163–192`, that follow the stop
of the servers from waiting for ever, whatever the queues hold: a processor thread looks at
`isRunning_` again after at most one more event and at most one drop,
`src/core/processor/manager.cpp:53–73`, and `dispatchLoop` at `running_` after at most one more
event and its retries, `src/core/events/dispatcher.cpp:84–130`. Unlike the draining of the queues
this holds in every run.
-/

namespace EventStreamCore.Bridge
open EventStreamCore.Lib EventStreamCore.Queues EventStreamCore.Events

/-- The steps of a processor thread before it looks at `isRunning_` again and leaves. -/
def ConsumerPc.work : ConsumerPc → Nat
  | .exited => 0
  | .check => 1
  | .dropFlush => 2
  | .dropTake => 3
  | .process _ => 4
  | .pop => 5

/-- Is the thread going to give one more event to `process`? -/
def ConsumerPc.mayProcess : ConsumerPc → Bool
  | .process _ => true
  | .pop => true
  | _ => false

/-- The steps left of the stop sequence. -/
def ShutdownPc.work : ShutdownPc → Nat
  | .notCalled => 9
  | .stopUdp => 8
  | .stopTcp => 7
  | .clearIsRunning => 6
  | .joinRealtime => 5
  | .joinTransactional => 4
  | .joinBatch => 3
  | .clearRunning => 2
  | .joinDispatcher => 1
  | .returned => 0

/-- Has the stop sequence cleared `isRunning_`? -/
def ShutdownPc.isRunningCleared (pc : ShutdownPc) : Bool := pc.work ≤ 5

/-- Has the stop sequence cleared `running_`? -/
def ShutdownPc.runningCleared (pc : ShutdownPc) : Bool := pc.work ≤ 1

/-- A step that lets an event in. -/
def EngineLabel.isIngest : EngineLabel → Bool
  | .ingest _ _ => true
  | _ => false

/-- A step of the processor thread of a queue. -/
def EngineLabel.isConsumer (queueId : QueueId) : EngineLabel → Bool
  | .consumer q _ => q = queueId
  | _ => false

/-- A step of the dispatch thread. -/
def EngineLabel.isDispatcher : EngineLabel → Bool
  | .dispatcher _ => true
  | _ => false

namespace Engine

/-- The steps of the dispatch thread before it looks at `running_` again and leaves. -/
def loopWork (s : Engine) : Nat :=
  match s.loop with
  | .exited => 0
  | .check => 1
  | .body => if s.pipe.dispatcher.isIdle then 30 else 2 + s.pipe.dispatcher.work

/-- Is the dispatch thread at its `pop` of the inbound queue? -/
def atPop (s : Engine) : Bool := s.loop = .body && s.pipe.dispatcher.isIdle

/-- The steps of all threads but the ingest threads before the stop sequence returns. -/
def work (s : Engine) : Nat :=
  s.shutdown.work + (s.consumers .realtime).work + (s.consumers .transactional).work +
    (s.consumers .batch).work + s.loopWork

/-- What every run keeps: one drop is in progress at a time, by the BATCH thread, and the flags
are down once the stop sequence has cleared them. -/
structure Sound (s : Engine) : Prop where
  droppers : s.pipe.droppers.length = if s.consumers .batch = .dropFlush then 1 else 0
  dropping : ∀ q, s.consumers q = .dropTake ∨ s.consumers q = .dropFlush → q = .batch
  isRunning : s.shutdown.isRunningCleared → s.isRunning = false
  running : s.shutdown.runningCleared → s.running = false

variable {s t : Engine} {topicTable : Option TopicTable}

theorem sound_initial (buffer : Fin realtimeCapacity.val → Item) :
    (initial buffer).Sound where
  droppers := rfl
  dropping q h := by rcases h with h | h <;> cases h
  isRunning h := by cases h
  running h := by cases h

/-- The number of drops in progress only changes with the step of the BATCH thread. -/
private theorem Sound.setConsumer {q : QueueId} {pc : ConsumerPc} {pipe : Pipeline}
    {processed : QueueId → List Item} (h : s.Sound)
    (hdroppers : pipe.droppers.length =
      if Function.update s.consumers q pc .batch = .dropFlush then 1 else 0)
    (hdropping : pc = .dropTake ∨ pc = .dropFlush → q = .batch) :
    Sound { s with pipe, processed, consumers := Function.update s.consumers q pc } := by
  refine ⟨hdroppers, ?_, h.isRunning, h.running⟩
  intro q' hpc
  by_cases he : q' = q
  · subst he
    exact hdropping (by simpa using hpc)
  · exact h.dropping q' (by simpa [he] using hpc)

/-- A thread that neither starts nor ends a drop leaves their number alone. -/
private theorem Sound.droppers_update {q : QueueId} {pc : ConsumerPc} (h : s.Sound)
    (hq : s.consumers q ≠ .dropFlush) (hpc : pc ≠ .dropFlush) : s.pipe.droppers.length =
      if Function.update s.consumers q pc .batch = .dropFlush then 1 else 0 := by
  rw [h.droppers]
  by_cases he : q = .batch
  · subst he
    rw [Function.update_self, if_neg hq, if_neg hpc]
  · rw [Function.update_of_ne (Ne.symm he)]

/-- What a step of `runLoop` does: it leaves the flags and the other threads alone and takes its
thread closer to the next look at `isRunning_`, unless the thread has just found it set. -/
structure ConsumerStep (q : QueueId) (pc : ConsumerPc) (s t : Engine) : Prop where
  consumers : t.consumers = Function.update s.consumers q pc
  closer : pc.work < (s.consumers q).work ∨ s.isRunning = true
  flags : t.isRunning = s.isRunning ∧ t.running = s.running ∧ t.shutdown = s.shutdown
  dispatch : t.loop = s.loop ∧ t.pipe.dispatcher = s.pipe.dispatcher
  processed : s.isRunning = false → (t.processed q).length + pc.mayProcess.toNat ≤
    (s.processed q).length + (s.consumers q).mayProcess.toNat
  others : ∀ q', q' ≠ q → t.processed q' = s.processed q'
  sound : s.Sound → t.Sound

theorem stepConsumer_cases {q : QueueId} {dropEvents : Bool}
    (h : s.stepConsumer q dropEvents = some t) : ∃ pc, ConsumerStep q pc s t := by
  unfold stepConsumer at h
  split at h
  · next hq =>
    cases h
    refine ⟨_, rfl, ?_, ⟨rfl, rfl, rfl⟩, ⟨rfl, rfl⟩, ?_, fun _ _ ↦ rfl, ?_⟩
    · cases hr : s.isRunning with
      | true => exact .inr rfl
      | false =>
        left
        simp [hq, ConsumerPc.work]
    · intro hr
      simp [hr, ConsumerPc.mayProcess, setConsumer]
    · intro hs
      apply hs.setConsumer
      · apply hs.droppers_update
        · simp [hq]
        · split <;> simp
      · split <;> simp
  · next hq =>
    split at h
    · cases h
      refine ⟨_, rfl, .inl ?_, ⟨rfl, rfl, rfl⟩, ⟨rfl, rfl⟩, ?_, fun _ _ ↦ rfl, ?_⟩
      · simp [hq, ConsumerPc.work]
      · simp [ConsumerPc.mayProcess, setConsumer]
      · intro hs
        apply hs.setConsumer
        · exact hs.droppers_update (by simp [hq]) (by simp)
        · simp
    · next item bus hpop =>
      obtain ⟨pipe, hp, rfl⟩ := Option.map_eq_some_iff.mp h
      obtain ⟨⟨item', bus'⟩, -, rfl⟩ := Option.map_eq_some_iff.mp hp
      refine ⟨_, rfl, .inl ?_, ⟨rfl, rfl, rfl⟩, ⟨rfl, rfl⟩, ?_, fun _ _ ↦ rfl, ?_⟩
      · simp [hq, ConsumerPc.work]
      · simp [hq, ConsumerPc.mayProcess]
      · intro hs
        apply hs.setConsumer
        · exact hs.droppers_update (by simp [hq]) (by simp)
        · simp
  · next item hq =>
    cases h
    refine ⟨_, rfl, .inl ?_, ⟨rfl, rfl, rfl⟩, ⟨rfl, rfl⟩, ?_, ?_, ?_⟩
    · split <;> simp [hq, ConsumerPc.work]
    · intro _
      split <;> simp [hq, ConsumerPc.mayProcess]
    · intro q' hne
      exact Function.update_of_ne hne _ _
    · intro hs
      apply hs.setConsumer
      · apply hs.droppers_update
        · simp [hq]
        · split <;> simp
      · split
        · next hd => exact fun _ ↦ hd.1
        · simp
  · next hq =>
    obtain ⟨pipe, hp, rfl⟩ := Option.map_eq_some_iff.mp h
    cases hp
    refine ⟨_, rfl, .inl ?_, ⟨rfl, rfl, rfl⟩, ⟨rfl, rfl⟩, ?_, fun _ _ ↦ rfl, ?_⟩
    · simp [hq, ConsumerPc.work]
    · simp [ConsumerPc.mayProcess]
    · intro hs
      obtain rfl := hs.dropping q (.inl hq)
      have hnone := hs.droppers
      rw [hq] at hnone
      apply hs.setConsumer
      · simpa using hnone
      · exact fun _ ↦ rfl
  · next hq =>
    obtain ⟨pipe, hp, rfl⟩ := Option.map_eq_some_iff.mp h
    obtain ⟨batch, hbatch, rfl⟩ := Option.map_eq_some_iff.mp hp
    refine ⟨_, rfl, .inl ?_, ⟨rfl, rfl, rfl⟩, ⟨rfl, rfl⟩, ?_, fun _ _ ↦ rfl, ?_⟩
    · simp [hq, ConsumerPc.work]
    · simp [ConsumerPc.mayProcess]
    · intro hs
      obtain rfl := hs.dropping q (.inr hq)
      have hone := hs.droppers
      rw [hq, if_pos rfl] at hone
      apply hs.setConsumer
      · simp [hone]
      · simp
  · cases h

/-- A step of `dispatchLoop` leaves the other threads and the flags alone and takes the thread
closer to the next look at `running_`, unless it has just found it set. -/
theorem stepLoop_work {timeout : Bool} (h : s.stepLoop topicTable timeout = some t) :
    t.loopWork < s.loopWork ∨ s.running = true := by
  obtain ⟨hl, rfl⟩ | ⟨hl, pipe, hp, rfl⟩ := stepLoop_cases h
  · cases hr : s.running with
    | true => exact .inr rfl
    | false =>
      left
      simp [loopWork, hl]
  · left
    by_cases hidle : s.pipe.dispatcher = .idle
    · have hpop : pipe = s.pipe.popInbound := by
        simpa [Pipeline.stepDispatcher, hidle] using hp.symm
      have hpipe : pipe.dispatcher = .idle ∨ ∃ item, pipe.dispatcher = .route item := by
        rw [hpop]
        unfold Pipeline.popInbound
        split
        · exact .inl hidle
        · exact .inl hidle
        · exact .inr ⟨_, rfl⟩
      rcases hpipe with hpipe | ⟨item, hpipe⟩
      · simp [loopWork, hl, hidle, hpipe, DispatcherPc.isIdle]
      · simp [loopWork, hl, hidle, hpipe, DispatcherPc.isIdle, DispatcherPc.work]
    · have hlt := Pipeline.dispatcher_work_lt hidle hp
      have hbusy : s.pipe.dispatcher.isIdle = false := by
        cases hd : s.pipe.dispatcher with
        | idle => exact absurd hd hidle
        | _ => rfl
      by_cases hpipe : pipe.dispatcher.isIdle
      · simp only [loopWork, hl, hbusy, hpipe, if_true, Bool.false_eq_true, if_false]
        omega
      · simp only [loopWork, hl, hbusy, hpipe]
        simpa using hlt

/-- The stop sequence moves on, clears its flags for good and starts no drop. -/
theorem stepShutdown_work (h : s.stepShutdown = some t) :
    t.shutdown.work < s.shutdown.work ∧ (s.isRunning = false → t.isRunning = false) ∧
      (s.Sound → t.Sound) := by
  have hjoin : ∀ q next, s.join q next = some t → next.work < s.shutdown.work →
      (next.isRunningCleared → s.shutdown.isRunningCleared) →
      (next.runningCleared → s.shutdown.runningCleared) →
      t.shutdown.work < s.shutdown.work ∧ (s.isRunning = false → t.isRunning = false) ∧
        (s.Sound → t.Sound) := by
    intro q next hj hlt hi hr
    obtain ⟨-, rfl⟩ := join_eq_some hj
    exact ⟨hlt, id, fun hs ↦
      ⟨hs.droppers, hs.dropping, fun h ↦ hs.isRunning (hi h), fun h ↦ hs.running (hr h)⟩⟩
  -- before `isRunning_` is cleared, and before `running_` is, the flags need not be down
  have hup : ∀ pc : ShutdownPc, 6 ≤ pc.work → t.shutdown = pc → t.shutdown.isRunningCleared →
      t.isRunning = false := by
    rintro pc hwork rfl hc
    have := of_decide_eq_true hc
    omega
  have hup' : ∀ pc : ShutdownPc, 2 ≤ pc.work → t.shutdown = pc → t.shutdown.runningCleared →
      t.running = false := by
    rintro pc hwork rfl hc
    have := of_decide_eq_true hc
    omega
  unfold stepShutdown at h
  cases hpc : s.shutdown <;> rw [hpc] at h hjoin
  case notCalled =>
    cases h
    exact ⟨Nat.lt_succ_self _, id, fun hs ↦
      ⟨hs.droppers, hs.dropping, hup .stopUdp (by decide) rfl, hup' .stopUdp (by decide) rfl⟩⟩
  case stopUdp =>
    cases h
    exact ⟨Nat.lt_succ_self _, id, fun hs ↦
      ⟨hs.droppers, hs.dropping, hup .stopTcp (by decide) rfl, hup' .stopTcp (by decide) rfl⟩⟩
  case stopTcp =>
    cases h
    exact ⟨Nat.lt_succ_self _, id, fun hs ↦ ⟨hs.droppers, hs.dropping,
      hup .clearIsRunning (by decide) rfl, hup' .clearIsRunning (by decide) rfl⟩⟩
  case clearIsRunning =>
    cases h
    exact ⟨Nat.lt_succ_self _, fun _ ↦ rfl, fun hs ↦
      ⟨hs.droppers, hs.dropping, fun _ ↦ rfl, hup' .joinRealtime (by decide) rfl⟩⟩
  case joinRealtime => exact hjoin _ _ h (by decide) id id
  case joinTransactional => exact hjoin _ _ h (by decide) id id
  case joinBatch => exact hjoin _ _ h (by decide) id id
  case clearRunning =>
    cases h
    exact ⟨Nat.lt_succ_self _, id, fun hs ↦
      ⟨hs.droppers, hs.dropping, fun _ ↦ hs.isRunning (by rw [hpc]; rfl), fun _ ↦ rfl⟩⟩
  case joinDispatcher =>
    dsimp only at h
    split at h <;> cases h
    exact ⟨Nat.lt_succ_self _, id, fun hs ↦ ⟨hs.droppers, hs.dropping,
      fun _ ↦ hs.isRunning (by rw [hpc]; rfl), fun _ ↦ hs.running (by rw [hpc]; rfl)⟩⟩
  case returned => cases h

/-- Every step keeps the invariant. -/
theorem Sound.step {l : EngineLabel} (h : s.Sound) (ht : s.step topicTable l = some t) :
    t.Sound := by
  cases l with
  | ingest source evt =>
    change (if _ then _ else _) = _ at ht
    split at ht <;> cases ht
    refine ⟨?_, h.dropping, h.isRunning, h.running⟩
    unfold Pipeline.tryPush
    split
    · exact h.droppers
    · split
      · exact h.droppers
      · exact h.droppers
  | dispatcher timeout =>
    obtain ⟨-, rfl⟩ | ⟨-, pipe, hp, rfl⟩ := stepLoop_cases ht
    · exact ⟨h.droppers, h.dropping, h.isRunning, h.running⟩
    · refine ⟨?_, h.dropping, h.isRunning, h.running⟩
      rw [(Pipeline.stepDispatcher_frame hp).2.1]
      exact h.droppers
  | consumer q dropEvents =>
    obtain ⟨pc, hstep⟩ := stepConsumer_cases ht
    exact hstep.sound h
  | shutdown => exact (stepShutdown_work ht).2.2 h

/-- The flags stay down. -/
theorem flags_step {l : EngineLabel} (ht : s.step topicTable l = some t) :
    (s.isRunning = false → t.isRunning = false) ∧ (s.running = false → t.running = false) := by
  cases l with
  | ingest source evt =>
    change (if _ then _ else _) = _ at ht
    split at ht <;> cases ht
    exact ⟨id, id⟩
  | dispatcher timeout =>
    obtain ⟨-, rfl⟩ | ⟨-, pipe, -, rfl⟩ := stepLoop_cases ht
    · exact ⟨id, id⟩
    · exact ⟨id, id⟩
  | consumer q dropEvents =>
    obtain ⟨pc, hstep⟩ := stepConsumer_cases ht
    rw [hstep.flags.1, hstep.flags.2.1]
    exact ⟨id, id⟩
  | shutdown => exact ⟨(stepShutdown_work ht).2.1, (stepShutdown_frame ht).2.2.2.2⟩

/-- What a step does to the processor thread of a queue: nothing, unless it is that thread's. -/
theorem consumer_frame {l : EngineLabel} {q : QueueId} (hl : l.isConsumer q = false)
    (ht : s.step topicTable l = some t) :
    t.consumers q = s.consumers q ∧ t.processed q = s.processed q := by
  cases l with
  | ingest source evt =>
    change (if _ then _ else _) = _ at ht
    split at ht <;> cases ht
    exact ⟨rfl, rfl⟩
  | dispatcher timeout =>
    obtain ⟨-, rfl⟩ | ⟨-, pipe, -, rfl⟩ := stepLoop_cases ht
    · exact ⟨rfl, rfl⟩
    · exact ⟨rfl, rfl⟩
  | consumer q' dropEvents =>
    obtain ⟨pc, hstep⟩ := stepConsumer_cases ht
    have hne : q ≠ q' := fun he ↦ of_decide_eq_false hl he.symm
    refine ⟨?_, hstep.others q hne⟩
    rw [hstep.consumers, Function.update_of_ne hne]
  | shutdown =>
    obtain ⟨-, hconsumers, -, hprocessed, -⟩ := stepShutdown_frame ht
    exact ⟨congrFun hconsumers q, congrFun hprocessed q⟩

/-- What a step does to the dispatch thread: nothing, unless it is that thread's. -/
theorem loop_frame {l : EngineLabel} (hl : l.isDispatcher = false)
    (ht : s.step topicTable l = some t) :
    t.loop = s.loop ∧ t.pipe.dispatcher = s.pipe.dispatcher := by
  cases l with
  | ingest source evt =>
    change (if _ then _ else _) = _ at ht
    split at ht <;> cases ht
    refine ⟨rfl, ?_⟩
    unfold Pipeline.tryPush
    split
    · rfl
    · split <;> rfl
  | dispatcher timeout => cases hl
  | consumer q dropEvents =>
    obtain ⟨pc, hstep⟩ := stepConsumer_cases ht
    exact hstep.dispatch
  | shutdown =>
    obtain ⟨hpipe, -, hloop, -, -⟩ := stepShutdown_frame ht
    exact ⟨hloop, congrArg Pipeline.dispatcher hpipe⟩

end Engine

end EventStreamCore.Bridge
