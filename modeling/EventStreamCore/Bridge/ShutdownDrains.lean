import EventStreamCore.Bridge.Shutdown

/-!
# When shutdown leaves nothing behind

The loops of `manager.cpp` and `dispatcher.cpp` test nothing but their flag, so `esccore_shutdown`,
`src/bridge/esccore.cpp:163–192`, drains the queues in the runs in which no thread stops with work
left.
-/

namespace EventStreamCore.Bridge
open EventStreamCore.Lib EventStreamCore.Queues EventStreamCore.Events

namespace Engine

/-- No ingest server is running. -/
def Sealed (s : Engine) : Prop := ∀ source, s.ingesting source = false

/-- What the stop sequence has brought about before each of its steps. -/
def Stopped (s : Engine) : ShutdownPc → Prop
  | .notCalled => s.running = true
  | .stopUdp => s.running = true
  | .stopTcp => s.running = true ∧ s.ingesting .udp = false
  | .clearIsRunning => s.running = true ∧ s.Sealed
  | .joinRealtime => s.running = true ∧ s.Sealed
  | .joinTransactional => s.running = true ∧ s.Sealed ∧ s.consumers .realtime = .exited
  | .joinBatch => s.running = true ∧ s.Sealed ∧ s.consumers .realtime = .exited ∧
      s.consumers .transactional = .exited
  | .clearRunning => s.running = true ∧ s.Sealed ∧ ∀ q, s.consumers q = .exited
  | .joinDispatcher => s.Sealed ∧ ∀ q, s.consumers q = .exited
  | .returned => s.Sealed ∧ (∀ q, s.consumers q = .exited) ∧ s.loop = .exited

/-- What the threads keep as long as none of them stops with work left. -/
structure Inv (s : Engine) : Prop where
  popped : ∀ q, s.pipe.popped q = s.processed q ++ (s.consumers q).hands
  droppers : s.pipe.droppers.length = if s.consumers .batch = .dropFlush then 1 else 0
  dropping : ∀ q, s.consumers q = .dropTake ∨ s.consumers q = .dropFlush → q = .batch
  idle : s.loop ≠ .body → s.pipe.dispatcher.isIdle
  drained : ∀ q, s.consumers q = .exited → s.pipe.bus.held q = []
  inbound : s.loop = .exited → s.pipe.inbound.filterMap id = []
  exited : s.loop = .exited → s.running = false
  stopped : s.Stopped s.shutdown

variable {s t : Engine} {topicTable : Option TopicTable}

/-- Threads that have left their loops stay out of them. -/
private theorem Stopped.mono {pc : ShutdownPc} (h : s.Stopped pc) (hrun : t.running = s.running)
    (hing : t.ingesting = s.ingesting)
    (hcons : ∀ q, s.consumers q = .exited → t.consumers q = .exited)
    (hloop : s.loop = .exited → t.loop = .exited) : t.Stopped pc := by
  have hsealed : s.Sealed → t.Sealed := fun hs source ↦ (congrFun hing source).trans (hs source)
  cases pc with
  | notCalled => exact hrun.trans h
  | stopUdp => exact hrun.trans h
  | stopTcp => exact ⟨hrun.trans h.1, (congrFun hing .udp).trans h.2⟩
  | clearIsRunning => exact ⟨hrun.trans h.1, hsealed h.2⟩
  | joinRealtime => exact ⟨hrun.trans h.1, hsealed h.2⟩
  | joinTransactional => exact ⟨hrun.trans h.1, hsealed h.2.1, hcons _ h.2.2⟩
  | joinBatch => exact ⟨hrun.trans h.1, hsealed h.2.1, hcons _ h.2.2.1, hcons _ h.2.2.2⟩
  | clearRunning => exact ⟨hrun.trans h.1, hsealed h.2.1, fun q ↦ hcons q (h.2.2 q)⟩
  | joinDispatcher => exact ⟨hsealed h.1, fun q ↦ hcons q (h.2 q)⟩
  | returned => exact ⟨hsealed h.1, fun q ↦ hcons q (h.2.1 q), hloop h.2.2⟩

/-- Once `running_` is cleared no event comes in. -/
private theorem Stopped.sealed {pc : ShutdownPc} (h : s.Stopped pc) (hrun : s.running = false) :
    s.Sealed := by
  have habsurd : s.running = true → s.Sealed := fun ht ↦ by
    rw [hrun] at ht
    cases ht
  cases pc with
  | notCalled => exact habsurd h
  | stopUdp => exact habsurd h
  | joinDispatcher => exact h.1
  | returned => exact h.1
  | _ => exact habsurd h.1

private theorem inv_engine_initial (buffer : Fin realtimeCapacity.val → Item) :
    (initial buffer).Inv where
  popped _ := rfl
  droppers := rfl
  dropping _ h := by rcases h with h | h <;> cases h
  idle _ := rfl
  drained _ h := by cases h
  inbound h := by cases h
  exited h := by cases h
  stopped := rfl

private theorem inv_ingest {source : Source} {evt : Option Event} (h : s.Inv)
    (hs : s.ingesting source = true) : Inv { s with pipe := s.pipe.tryPush evt } := by
  have hframe : (s.pipe.tryPush evt).popped = s.pipe.popped ∧
      (s.pipe.tryPush evt).droppers = s.pipe.droppers ∧
      (s.pipe.tryPush evt).dispatcher = s.pipe.dispatcher ∧
      (s.pipe.tryPush evt).bus = s.pipe.bus := by
    unfold Pipeline.tryPush
    split
    · exact ⟨rfl, rfl, rfl, rfl⟩
    · cases evt <;> exact ⟨rfl, rfl, rfl, rfl⟩
  obtain ⟨hpopped, hdroppers, hdispatcher, hbus⟩ := hframe
  constructor
  · intro q
    exact (congrFun hpopped q).trans (h.popped q)
  · exact (congrArg List.length hdroppers).trans h.droppers
  · exact h.dropping
  · intro hl
    exact (congrArg DispatcherPc.isIdle hdispatcher).trans (h.idle hl)
  · intro q hq
    exact (congrArg (·.held q) hbus).trans (h.drained q hq)
  · intro hl
    -- an exited loop has seen `running_` cleared, which comes after the servers have stopped
    have hsealed := h.stopped.sealed (h.exited hl) source
    rw [hs] at hsealed
    cases hsealed
  · exact h.exited
  · exact h.stopped.mono rfl rfl (fun _ hq ↦ hq) id

private theorem inv_stepLoop {timeout : Bool} (h : s.Inv)
    (hg : s.LoopLeavesNothing s.loop) (ht : s.stepLoop topicTable timeout = some t) : t.Inv := by
  obtain ⟨hl, rfl⟩ | ⟨hl, pipe, hp, rfl⟩ := stepLoop_cases ht
  · rw [hl] at hg
    constructor
    · exact h.popped
    · exact h.droppers
    · exact h.dropping
    · intro _
      exact h.idle (by rw [hl]; decide)
    · exact h.drained
    · intro he
      by_cases hr : s.running
      · rw [if_pos hr] at he
        cases he
      · exact hg (Bool.eq_false_iff.mpr hr)
    · intro he
      by_cases hr : s.running
      · rw [if_pos hr] at he
        cases he
      · exact Bool.eq_false_iff.mpr hr
    · exact h.stopped.mono rfl rfl (fun _ hq ↦ hq) fun he ↦ absurd (hl.symm.trans he) (by decide)
  · rw [hl] at hg
    obtain ⟨hpopped, hdroppers, hheld⟩ := Pipeline.stepDispatcher_frame hp
    have hnot : (if pipe.dispatcher.isIdle then LoopPc.check else .body) ≠ .exited := by
      split <;> decide
    constructor
    · intro q
      exact (congrFun hpopped q).trans (h.popped q)
    · exact (congrArg List.length hdroppers).trans h.droppers
    · exact h.dropping
    · intro hb
      by_cases hidle : pipe.dispatcher.isIdle
      · exact hidle
      · exact absurd (if_neg hidle) hb
    · intro q hq
      rw [← h.drained q hq]
      apply hheld
      intro htarget
      exact hg q htarget hq
    · intro he
      exact absurd he hnot
    · intro he
      exact absurd he hnot
    · exact h.stopped.mono rfl rfl (fun _ hq ↦ hq) fun he ↦ absurd (hl.symm.trans he) (by decide)

/-- What a step of the processor thread of one queue has to keep. -/
private theorem Inv.setConsumer {q : QueueId} {pipe : Pipeline} {pc : ConsumerPc}
    {processed : QueueId → List Item} (h : s.Inv) (hq : s.consumers q ≠ .exited)
    (hpopped : pipe.popped q = processed q ++ pc.hands)
    (hothers : ∀ q', q' ≠ q → pipe.popped q' = s.pipe.popped q' ∧
      processed q' = s.processed q' ∧ pipe.bus.held q' = s.pipe.bus.held q')
    (hdispatcher : pipe.dispatcher = s.pipe.dispatcher) (hinbound : pipe.inbound = s.pipe.inbound)
    (hdroppers : pipe.droppers.length =
      if Function.update s.consumers q pc .batch = .dropFlush then 1 else 0)
    (hdropping : pc = .dropTake ∨ pc = .dropFlush → q = .batch)
    (hdrained : pc = .exited → pipe.bus.held q = []) :
    Inv { s with pipe, processed, consumers := Function.update s.consumers q pc } := by
  have hexited : ∀ q', s.consumers q' = .exited →
      Function.update s.consumers q pc q' = .exited := by
    intro q' hpc
    have hne : q' ≠ q := by
      rintro rfl
      exact hq hpc
    exact (Function.update_of_ne hne _ _).trans hpc
  constructor <;> dsimp only
  · intro q'
    by_cases he : q' = q
    · subst he
      rw [Function.update_self]
      exact hpopped
    · rw [Function.update_of_ne he, (hothers q' he).1, (hothers q' he).2.1]
      exact h.popped q'
  · exact hdroppers
  · intro q' hpc
    by_cases he : q' = q
    · subst he
      rw [Function.update_self] at hpc
      exact hdropping hpc
    · rw [Function.update_of_ne he] at hpc
      exact h.dropping q' hpc
  · intro hl
    exact (congrArg DispatcherPc.isIdle hdispatcher).trans (h.idle hl)
  · intro q' hpc
    by_cases he : q' = q
    · subst he
      rw [Function.update_self] at hpc
      exact hdrained hpc
    · rw [Function.update_of_ne he] at hpc
      exact (hothers q' he).2.2.trans (h.drained q' hpc)
  · intro hl
    exact (congrArg (·.filterMap id) hinbound).trans (h.inbound hl)
  · exact h.exited
  · exact h.stopped.mono rfl rfl hexited id

/-- A thread that neither starts nor ends a drop leaves their number alone. -/
private theorem Inv.droppers_update {q : QueueId} {pc : ConsumerPc} (h : s.Inv)
    (hq : s.consumers q ≠ .dropFlush) (hpc : pc ≠ .dropFlush) : s.pipe.droppers.length =
      if Function.update s.consumers q pc .batch = .dropFlush then 1 else 0 := by
  rw [h.droppers]
  by_cases he : q = .batch
  · subst he
    rw [Function.update_self, if_neg hq, if_neg hpc]
  · rw [Function.update_of_ne (Ne.symm he)]

/-- A thread with empty hands turns in its loop, and leaves it only if its queue is empty. -/
private theorem inv_consumer_turn {q : QueueId} {pc : ConsumerPc} (h : s.Inv)
    (hq : s.consumers q = .check ∨ s.consumers q = .pop)
    (hpc : pc = .check ∨ pc = .pop ∨ pc = .exited ∧ s.pipe.bus.held q = []) :
    (s.setConsumer q pc).Inv := by
  have hturns : s.consumers q ≠ .exited ∧ s.consumers q ≠ .dropFlush := by
    rcases hq with hq | hq <;> simp [hq]
  have hends : pc.hands = [] ∧ pc ≠ .dropTake ∧ pc ≠ .dropFlush := by
    rcases hpc with rfl | rfl | ⟨rfl, -⟩ <;> simp [ConsumerPc.hands]
  apply h.setConsumer hturns.1 _ (fun _ _ ↦ ⟨rfl, rfl, rfl⟩) rfl rfl
  · exact h.droppers_update hturns.2 hends.2.2
  · rintro (rfl | rfl)
    · exact absurd rfl hends.2.1
    · exact absurd rfl hends.2.2
  · rintro rfl
    simpa using hpc
  · rw [h.popped q, hends.1]
    rcases hq with hq | hq <;> rw [hq] <;> rfl

private theorem inv_consumer_check {q : QueueId} (h : s.Inv) (hq : s.consumers q = .check)
    (hg : s.isRunning = false → s.pipe.bus.held q = []) :
    (s.setConsumer q (if s.isRunning then .pop else .exited)).Inv := by
  apply inv_consumer_turn h (.inl hq)
  by_cases hr : s.isRunning
  · exact .inr (.inl (if_pos hr))
  · exact .inr (.inr ⟨if_neg hr, hg (Bool.eq_false_iff.mpr hr)⟩)

private theorem inv_consumer_pop {q : QueueId} {item : Item} {bus : EventBusMulti Item}
    {pipe : Pipeline} (h : s.Inv) (hq : s.consumers q = .pop)
    (hpop : s.pipe.bus.pop q = some (item, bus)) (hp : s.pipe.consume q = some pipe) :
    Inv { s with pipe, consumers := Function.update s.consumers q (.process item) } := by
  have hold : s.pipe.popped q = s.processed q ++ [] := by
    rw [h.popped q, hq]
    rfl
  rw [Pipeline.consume, hpop] at hp
  cases hp
  apply h.setConsumer (by rw [hq]; decide)
  · change Function.update s.pipe.popped q (s.pipe.popped q ++ [item]) q = _
    rw [Function.update_self, hold, List.append_nil]
    rfl
  · intro q' hne
    exact ⟨Function.update_of_ne hne _ _, rfl, (EventBusMulti.pop_held hpop).2 q' hne⟩
  · rfl
  · rfl
  · exact h.droppers_update (by rw [hq]; decide) nofun
  · rintro (hpc | hpc) <;> cases hpc
  · intro hpc
    cases hpc

private theorem inv_consumer_process {q : QueueId} {item : Item} {pc : ConsumerPc} (h : s.Inv)
    (hq : s.consumers q = .process item) (hpc : pc = .dropTake ∧ q = .batch ∨ pc = .check) :
    Inv { s with
      processed := Function.update s.processed q (s.processed q ++ [item])
      consumers := Function.update s.consumers q pc } := by
  have hold : s.pipe.popped q = s.processed q ++ [item] := by
    rw [h.popped q, hq]
    rfl
  have hhands : pc.hands = [] := by
    rcases hpc with ⟨rfl, -⟩ | rfl <;> rfl
  apply h.setConsumer (by rw [hq]; nofun)
  · rw [Function.update_self, hhands, List.append_nil]
    exact hold
  · intro q' hne
    exact ⟨rfl, Function.update_of_ne hne _ _, rfl⟩
  · rfl
  · rfl
  · apply h.droppers_update (by rw [hq]; nofun)
    rcases hpc with ⟨rfl, -⟩ | rfl <;> decide
  · rcases hpc with ⟨rfl, hb⟩ | rfl
    · exact fun _ ↦ hb
    · rintro (hc | hc) <;> cases hc
  · rcases hpc with ⟨rfl, -⟩ | rfl <;> exact fun hc ↦ (by cases hc)

private theorem inv_consumer_dropTake {q : QueueId} {pipe : Pipeline} (h : s.Inv)
    (hq : s.consumers q = .dropTake) (hp : s.pipe.dropTake .batch = some pipe) :
    Inv { s with pipe, consumers := Function.update s.consumers q .dropFlush } := by
  obtain rfl := h.dropping q (.inl hq)
  have hold : s.pipe.popped .batch = s.processed .batch ++ [] := by
    rw [h.popped .batch, hq]
    rfl
  have hnone : s.pipe.droppers.length = 0 := by
    rw [h.droppers, hq]
    rfl
  cases hp
  apply h.setConsumer (by rw [hq]; decide) hold
  · intro q' hne
    exact ⟨rfl, rfl, s.pipe.bus.takeBatch_held_of_ne hne⟩
  · rfl
  · rfl
  · rw [Function.update_self]
    change (s.pipe.droppers ++ [_]).length = 1
    rw [List.length_append, hnone]
    rfl
  · exact fun _ ↦ rfl
  · intro hpc
    cases hpc

private theorem inv_consumer_dropFlush {q : QueueId} {pipe : Pipeline} (h : s.Inv)
    (hq : s.consumers q = .dropFlush) (hp : s.pipe.dropFlush 0 = some pipe) :
    Inv { s with pipe, consumers := Function.update s.consumers q .check } := by
  obtain rfl := h.dropping q (.inr hq)
  have hold : s.pipe.popped .batch = s.processed .batch ++ [] := by
    rw [h.popped .batch, hq]
    rfl
  have hone : s.pipe.droppers.length = 1 := by
    rw [h.droppers, hq]
    rfl
  obtain ⟨batch, -, rfl⟩ := Option.map_eq_some_iff.mp hp
  have hheld : ∀ q', (if batch.isEmpty then s.pipe.bus else s.pipe.bus.flushBatch batch).held q' =
      s.pipe.bus.held q' := by
    intro q'
    split
    · rfl
    · cases q' <;> rfl
  apply h.setConsumer (by rw [hq]; decide) hold
  · intro q' _
    exact ⟨rfl, rfl, hheld q'⟩
  · rfl
  · rfl
  · rw [Function.update_self]
    change (s.pipe.droppers.eraseIdx 0).length = 0
    rw [List.length_eraseIdx, hone]
    rfl
  · rintro (hpc | hpc) <;> cases hpc
  · intro hpc
    cases hpc

private theorem inv_stepConsumer {q : QueueId} {dropEvents : Bool} (h : s.Inv)
    (hg : s.LeavesNothing (.consumer q dropEvents))
    (ht : s.stepConsumer q dropEvents = some t) : t.Inv := by
  unfold stepConsumer at ht
  split at ht
  · next hq =>
    cases ht
    exact inv_consumer_check h hq (hg hq)
  · next hq =>
    split at ht
    · cases ht
      exact inv_consumer_turn h (.inr hq) (.inl rfl)
    · next item bus hpop =>
      obtain ⟨pipe, hp, rfl⟩ := Option.map_eq_some_iff.mp ht
      exact inv_consumer_pop h hq hpop hp
  · next item hq =>
    cases ht
    apply inv_consumer_process h hq
    by_cases hd : q = .batch ∧ dropEvents = true
    · exact .inl ⟨if_pos hd, hd.1⟩
    · exact .inr (if_neg hd)
  · next hq =>
    obtain ⟨pipe, hp, rfl⟩ := Option.map_eq_some_iff.mp ht
    exact inv_consumer_dropTake h hq hp
  · next hq =>
    obtain ⟨pipe, hp, rfl⟩ := Option.map_eq_some_iff.mp ht
    exact inv_consumer_dropFlush h hq hp
  · cases ht

/-- Each step of the stop sequence brings about what the next one relies on. -/
private theorem stopped_stepShutdown (h : s.Stopped s.shutdown) (ht : s.stepShutdown = some t) :
    t.Stopped t.shutdown := by
  unfold stepShutdown at ht
  cases hpc : s.shutdown <;> rw [hpc] at h ht
  case notCalled =>
    cases ht
    exact h
  case stopUdp =>
    cases ht
    exact ⟨h, rfl⟩
  case stopTcp =>
    cases ht
    refine ⟨h.1, ?_⟩
    intro source
    cases source with
    | udp => exact h.2
    | tcp => rfl
  case clearIsRunning =>
    cases ht
    exact h
  case joinRealtime =>
    obtain ⟨hq, rfl⟩ := join_eq_some ht
    exact ⟨h.1, h.2, hq⟩
  case joinTransactional =>
    obtain ⟨hq, rfl⟩ := join_eq_some ht
    exact ⟨h.1, h.2.1, h.2.2, hq⟩
  case joinBatch =>
    obtain ⟨hq, rfl⟩ := join_eq_some ht
    refine ⟨h.1, h.2.1, ?_⟩
    intro q
    cases q with
    | realtime => exact h.2.2.1
    | transactional => exact h.2.2.2
    | batch => exact hq
  case clearRunning =>
    cases ht
    exact h.2
  case joinDispatcher =>
    dsimp only at ht
    split at ht <;> cases ht
    next hl => exact ⟨h.1, h.2, hl⟩
  case returned => cases ht

private theorem inv_stepShutdown (h : s.Inv) (ht : s.stepShutdown = some t) : t.Inv := by
  obtain ⟨hpipe, hconsumers, hloop, hprocessed, hrunning⟩ := stepShutdown_frame ht
  constructor
  · rw [hpipe, hprocessed, hconsumers]
    exact h.popped
  · rw [hpipe, hconsumers]
    exact h.droppers
  · rw [hconsumers]
    exact h.dropping
  · rw [hpipe, hloop]
    exact h.idle
  · rw [hpipe, hconsumers]
    exact h.drained
  · rw [hpipe, hloop]
    exact h.inbound
  · rw [hloop]
    exact fun hl ↦ hrunning (h.exited hl)
  · exact stopped_stepShutdown h.stopped ht

/-- Every step that leaves no work behind keeps the invariant. -/
theorem Inv.step {l : EngineLabel} (h : s.Inv) (hg : s.LeavesNothing l)
    (ht : s.step topicTable l = some t) : t.Inv := by
  cases l with
  | ingest source evt =>
    change (if _ then _ else _) = _ at ht
    split at ht <;> cases ht
    next hs => exact inv_ingest h hs
  | dispatcher timeout => exact inv_stepLoop h hg ht
  | consumer q dropEvents => exact inv_stepConsumer h hg ht
  | shutdown => exact inv_stepShutdown h ht

/-- With every thread out of its loop, the pipeline's ledger has no other place left. -/
private theorem Inv.drained_of_returned (h : s.Inv) (hpipe : s.pipe.Inv)
    (hr : s.shutdown = .returned) : s.Drained := by
  have hstopped := h.stopped
  rw [hr] at hstopped
  obtain ⟨-, hexited, hloop⟩ := hstopped
  have hinbound := h.inbound hloop
  have hheld : ∀ q, s.pipe.bus.held q = [] := fun q ↦ h.drained q (hexited q)
  refine ⟨?_, hinbound, hheld⟩
  intro k hk
  have hhands : s.pipe.dispatcher.hands = [] :=
    DispatcherPc.hands_of_isIdle (h.idle (by rw [hloop]; decide))
  have hdroppers : s.pipe.droppers = [] := by
    apply List.eq_nil_of_length_eq_zero
    rw [h.droppers, hexited]
    rfl
  have hpopped : ∀ q, s.pipe.popped q = s.processed q := by
    intro q
    rw [h.popped q, hexited q]
    exact List.append_nil _
  have hmem : ∀ items : List Item, 0 < items.countP (fun item ↦ item.ticket == k) →
      k ∈ items.map Item.ticket := by
    intro items hpos
    obtain ⟨item, hitem, hticket⟩ := List.countP_pos_iff.mp hpos
    exact List.mem_map.mpr ⟨item, hitem, beq_iff_eq.mp hticket⟩
  have hcount := hpipe.count k
  rw [if_pos hk] at hcount
  simp only [Pipeline.countP, EventBusMulti.heldCount, hinbound, hhands, hdroppers, hheld,
    hpopped, List.flatten_nil, List.countP_nil] at hcount
  by_cases hprocessed : ∃ q, 0 < (s.processed q).countP fun item ↦ item.ticket == k
  · obtain ⟨q, hq⟩ := hprocessed
    exact .inl ⟨q, hmem _ hq⟩
  · right
    apply hmem
    have hzero : ∀ q, (s.processed q).countP (fun item ↦ item.ticket == k) = 0 :=
      fun q ↦ Nat.eq_zero_of_not_pos fun hq ↦ hprocessed ⟨q, hq⟩
    rw [hzero, hzero, hzero] at hcount
    omega

end Engine

/-- Graceful shutdown drains as long as no thread stops with work left: when the stop sequence
has returned, every event ever accepted by `tryPush` has been given to a processor or pushed to
the dead letter queue, and no event is left in the inbound queue or in a bus queue. -/
theorem shutdown_drains (topicTable : Option TopicTable)
    (buffer : Fin realtimeCapacity.val → Item) (s : Engine)
    (h : (engine topicTable buffer).ReachableWith Engine.LeavesNothing s)
    (hr : s.shutdown = .returned) : s.Drained := by
  have hinv : s.Inv :=
    h.invariant (Engine.inv_engine_initial buffer) fun _ _ _ hi hg hs ↦ hi.step hg hs
  have hpipe : s.pipe.Inv :=
    Pipeline.Inv.of_reachable ((engineToPipeline topicTable buffer).reachable h.reachable)
  exact hinv.drained_of_returned hpipe hr

/-- A CRITICAL event accepted before the stop sequence is processed before it returns. -/
theorem shutdown_drains_critical : ∃ s : Engine,
    (engine none fun _ ↦ ⟨0, ⟨⟨.tcp, .batch, 0, 0, 0, 0, 0⟩, [], [], [], 0⟩⟩).ReachableWith
      Engine.LeavesNothing s ∧
    s.shutdown = .returned ∧ s.pipe.nextTicket = 1 ∧ s.Drained := by
  let m := engine none fun _ ↦ ⟨0, ⟨⟨.tcp, .batch, 0, 0, 0, 0, 0⟩, [], [], [], 0⟩⟩
  have hrun : (m.runWith Engine.LeavesNothing m.start
      (List.flatten [[.ingest .tcp (some ⟨⟨.tcp, .critical, 1, 0, 0, 0, 0⟩, [], [], [], 0⟩)],
        List.replicate 5 (.dispatcher false), List.replicate 3 (.consumer .realtime false),
        List.replicate 4 .shutdown, [.consumer .realtime false,
          .consumer .transactional false, .consumer .batch false],
        List.replicate 4 .shutdown, [.dispatcher false, .shutdown]])).map
      (fun s ↦ (s.shutdown, s.pipe.nextTicket)) = some (.returned, 1) := by
    decide +kernel
  obtain ⟨s, hrun, hs⟩ := Option.map_eq_some_iff.mp hrun
  simp only [Prod.mk.injEq] at hs
  have hreach := Machine.ReachableWith.run .start hrun
  exact ⟨s, hreach, hs.1, hs.2, shutdown_drains _ _ s hreach hs.1⟩

/-- The stop sequence does not drain by itself: an event accepted just before it is still in
the inbound queue when it has returned, because every loop looks at its flag first. -/
theorem shutdown_strands_event : ∃ s : Engine,
    (engine none fun _ ↦ ⟨0, ⟨⟨.tcp, .batch, 0, 0, 0, 0, 0⟩, [], [], [], 0⟩⟩).Reachable s ∧
    s.shutdown = .returned ∧ ¬s.Drained := by
  let m := engine none fun _ ↦ ⟨0, ⟨⟨.tcp, .batch, 0, 0, 0, 0, 0⟩, [], [], [], 0⟩⟩
  have hrun : (m.run m.start
      (List.flatten [[.ingest .tcp (some ⟨⟨.tcp, .critical, 1, 0, 0, 0, 0⟩, [], [], [], 0⟩)],
        List.replicate 4 .shutdown, [.consumer .realtime false,
          .consumer .transactional false, .consumer .batch false],
        List.replicate 4 .shutdown, [.dispatcher false, .shutdown]])).map
      (fun s ↦ (s.shutdown, (s.pipe.inbound.filterMap id).length)) = some (.returned, 1) := by
    decide +kernel
  obtain ⟨s, hrun, hs⟩ := Option.map_eq_some_iff.mp hrun
  simp only [Prod.mk.injEq] at hs
  have hreach := Machine.Reachable.run .start hrun
  refine ⟨s, hreach, hs.1, ?_⟩
  intro hdrained
  rw [hdrained.2.1] at hs
  exact absurd hs.2 (by decide)

end EventStreamCore.Bridge
