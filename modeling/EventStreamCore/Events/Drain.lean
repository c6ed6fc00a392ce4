import EventStreamCore.Lib.Descent
import EventStreamCore.Events.Pipeline
import EventStreamCore.Events.Pressure

/-!
# The pipeline drains

Once no more events come in, the retries of `dispatchLoop`, `src/core/events/dispatcher.cpp:98–127`,
the consumers' `pop` and `dropBatchFromQueue` empty the queues, whichever thread performs the next
operation on one: every step that moves an event is paid for by what the events already accepted
still have before them.
-/

namespace EventStreamCore.Events
open EventStreamCore.Lib EventStreamCore.Queues

/-- What the event in the dispatcher's hands still has before it, in steps of the dispatcher and
of the threads that take it over. -/
def DispatcherPc.work : DispatcherPc → Nat
  | .idle => 0
  | .route _ => 27
  | .push _ _ retryCount op => 4 + op.rank + 8 * (Dispatcher.maxRetries - 1 - retryCount)
  | .dlq _ => 1

/-- A step that lets an event in. -/
def PipelineLabel.isIngest : PipelineLabel → Bool
  | .tryPush _ => true
  | _ => false

namespace Pipeline

/-- What all accepted events still have before them. -/
def work (s : Pipeline) : Nat :=
  28 * s.inbound.length + s.dispatcher.work + 2 * s.bus.heldCount (fun _ ↦ true) +
    s.droppers.flatten.length

/-- Does a step move an event, or make a retry? An idle dispatcher without input, a drop from an
empty queue and the end of such a drop do not. -/
def moves (s : Pipeline) : PipelineLabel → Bool
  | .tryPush _ => true
  | .dispatcher _ => !(s.dispatcher.isIdle && s.inbound.isEmpty)
  | .consume _ => true
  | .dropTake queueId => !(s.bus.held queueId).isEmpty
  | .dropFlush index => !(s.droppers[index]?.getD []).isEmpty

/-- No event is in a queue or in anybody's hands. -/
def Empty (s : Pipeline) : Prop :=
  s.inbound = [] ∧ s.dispatcher = .idle ∧ (∀ q, s.bus.held q = []) ∧ s.droppers.flatten = []

/-- Every accepted event has been popped by a consumer once or pushed to the dead letter queue
once, and is nowhere else; the dead letter queue itself keeps the latest 1000 of those pushes. -/
def Delivered (s : Pipeline) : Prop :=
  ∀ k < s.nextTicket, ∃ p, ((∃ q, p = .popped q) ∨ p = .dlq) ∧ (s.ticketsAt p).count k = 1 ∧
    ∀ p', p' ≠ p → (s.ticketsAt p').count k = 0

end Pipeline

namespace EventBusMulti

universe u

variable {α : Type u}

/-- An operation of `push` that goes on makes progress, whatever the wait does. -/
theorem pushOp_rank_lt {bus bus' : EventBusMulti α} {q : QueueId} {evt : α} {timeout : Bool}
    {op op' : PushOp α} (h : bus.pushOp q evt timeout op = some (bus', .running op')) :
    op'.rank < op.rank := by
  have hwait : bus.pushOp q evt true op = some (bus', .running op') := by
    cases op with
    | lockedPush =>
      rw [pushOp] at h
      split at h <;> cases h
    | _ => exact h
  obtain ⟨bus₁, result, hstep⟩ | ⟨bus₁, op₁, hstep, hlt⟩ := bus.pushOp_rank q evt op
  · rw [hstep] at hwait
    cases hwait
  · rw [hstep] at hwait
    cases hwait
    exact hlt

/-- With its wait over, every operation of `push` has a step. -/
theorem pushOp_true_isSome (bus : EventBusMulti α) (q : QueueId) (evt : α) (op : PushOp α) :
    (bus.pushOp q evt true op).isSome := by
  obtain ⟨bus', result, hstep⟩ | ⟨bus', op', hstep, -⟩ := bus.pushOp_rank q evt op
  · rw [hstep]
    rfl
  · rw [hstep]
    rfl

end EventBusMulti

namespace Pipeline

variable {s t : Pipeline} {topicTable : Option TopicTable}

private theorem work_popInbound (hd : s.dispatcher = .idle) :
    s.popInbound.work + (s.moves (.dispatcher true)).toNat ≤ s.work := by
  unfold popInbound moves
  rw [hd]
  cases hin : s.inbound with
  | nil => simp [DispatcherPc.isIdle]
  | cons evt inbound =>
    cases evt with
    | none =>
      simp only [work, hin, hd, DispatcherPc.work, List.length_cons, List.isEmpty_cons,
        Bool.and_false, Bool.not_false, Bool.toNat_true]
      omega
    | some item =>
      simp only [work, hin, hd, DispatcherPc.work, List.length_cons, List.isEmpty_cons,
        Bool.and_false, Bool.not_false, Bool.toNat_true]
      omega

private theorem work_routeItem {item : Item} (hd : s.dispatcher = .route item) :
    (s.routeItem topicTable item).work < s.work := by
  have hrank := (PushOp.first (α := Item)
    (Dispatcher.route topicTable s.bus.realtimeBus.pressure item.event).2).rank_bounds
  simp only [work, routeItem, hd, DispatcherPc.work, Dispatcher.maxRetries]
  omega

/-- An operation that goes on leaves no more events in the queues. -/
private theorem heldCount_of_running {bus bus' : EventBusMulti Item} {q : QueueId} {item : Item}
    {timeout : Bool} {op op' : PushOp Item} (hop : op ≠ .dlqIncoming)
    (h : bus.pushOp q item timeout op = some (bus', .running op')) :
    bus'.heldCount (fun _ ↦ true) ≤ bus.heldCount fun _ ↦ true := by
  have hcons := EventBusMulti.pushOp_conserves h hop fun _ ↦ true
  have hbefore : (op.hands item).countP (fun _ ↦ true) =
      1 + (op.dlqPushes item).countP fun _ ↦ true := by
    cases op with
    | dlqIncoming => exact absurd rfl hop
    | _ => rfl
  have hafter : 1 ≤ (PushOp.handsAfter item (.running op')).countP fun _ ↦ true := by
    cases op' <;> simp [PushOp.handsAfter, PushOp.hands]
  omega

/-- An operation that ends `push` leaves at most one event more in the queues, and none more if
it reports failure. -/
private theorem heldCount_of_returned {bus bus' : EventBusMulti Item} {q : QueueId} {item : Item}
    {timeout result : Bool} {op : PushOp Item} (hop : op ≠ .dlqIncoming)
    (h : bus.pushOp q item timeout op = some (bus', .returned result)) :
    bus'.heldCount (fun _ ↦ true) ≤ bus.heldCount (fun _ ↦ true) + result.toNat := by
  have hcons := EventBusMulti.pushOp_conserves h hop fun _ ↦ true
  have hbefore : (op.hands item).countP (fun _ ↦ true) =
      1 + (op.dlqPushes item).countP fun _ ↦ true := by
    cases op with
    | dlqIncoming => exact absurd rfl hop
    | _ => rfl
  have hafter : (PushOp.handsAfter item (.returned result)).countP (fun _ ↦ true) =
      1 - result.toNat := by
    cases result <;> rfl
  cases result <;> simp only [Bool.toNat_true, Bool.toNat_false] at hafter ⊢ <;> omega

/-- A failed `push` leaves less to do, whether or not it is repeated. -/
private theorem work_retry (item : Item) (queueId : QueueId) (retryCount : Nat) :
    (if retryCount + 1 < Dispatcher.maxRetries
      then DispatcherPc.push item queueId (retryCount + 1) (.first queueId)
      else .dlq item).work < 5 + 8 * (Dispatcher.maxRetries - 1 - retryCount) := by
  have hfirst := (PushOp.first (α := Item) queueId).rank_bounds
  split
  · next hlt =>
    simp only [DispatcherPc.work, Dispatcher.maxRetries] at hlt ⊢
    omega
  · simp only [DispatcherPc.work]
    omega

private theorem work_pushItem {item : Item} {queueId : QueueId} {retryCount : Nat}
    {timeout : Bool} {op : PushOp Item} (hop : op ≠ .dlqIncoming)
    (hd : s.dispatcher = .push item queueId retryCount op)
    (ht : s.pushItem item queueId retryCount timeout op = some t) : t.work < s.work := by
  obtain ⟨⟨bus, progress⟩, hbus, rfl⟩ := Option.map_eq_some_iff.mp ht
  have hpos := op.rank_bounds
  cases progress with
  | running op' =>
    have hrank := EventBusMulti.pushOp_rank_lt hbus
    have hheld := heldCount_of_running hop hbus
    simp only [work, hd, DispatcherPc.work]
    omega
  | returned result =>
    have hheld := heldCount_of_returned hop hbus
    cases result with
    | true =>
      simp only [Bool.toNat_true] at hheld
      simp only [work, hd, DispatcherPc.work]
      omega
    | false =>
      simp only [Bool.toNat_false] at hheld
      have hretry := work_retry item queueId retryCount
      simp only [work, hd]
      simp only [DispatcherPc.work] at hretry ⊢
      omega

/-- Every step of a busy dispatcher brings it closer to its next event. -/
theorem dispatcher_work_lt {timeout : Bool} (hbusy : s.dispatcher ≠ .idle)
    (ht : s.stepDispatcher topicTable timeout = some t) :
    t.dispatcher.work < s.dispatcher.work := by
  unfold stepDispatcher at ht
  split at ht
  · contradiction
  · next item hd =>
    cases ht
    have hrank := (PushOp.first (α := Item)
      (Dispatcher.route topicTable s.bus.realtimeBus.pressure item.event).2).rank_bounds
    simp only [routeItem, hd, DispatcherPc.work, Dispatcher.maxRetries]
    omega
  · next item queueId retryCount op hd =>
    obtain ⟨⟨bus, progress⟩, hbus, rfl⟩ := Option.map_eq_some_iff.mp ht
    have hpos := op.rank_bounds
    cases progress with
    | running op' =>
      have hrank := EventBusMulti.pushOp_rank_lt hbus
      simp only [hd, DispatcherPc.work]
      omega
    | returned result =>
      cases result with
      | true =>
        simp only [hd, DispatcherPc.work]
        omega
      | false =>
        have hretry := work_retry item queueId retryCount
        simp only [hd]
        simp only [DispatcherPc.work] at hretry ⊢
        omega
  · next item hd =>
    cases ht
    simp [hd, DispatcherPc.work]

/-- A step of the dispatcher that moves an event makes progress. -/
private theorem work_stepDispatcher {timeout : Bool} (h : s.Inv)
    (ht : s.stepDispatcher topicTable timeout = some t) :
    t.work + (s.moves (.dispatcher timeout)).toNat ≤ s.work := by
  have hbusy : t.work < s.work →
      t.work + (s.moves (.dispatcher timeout)).toNat ≤ s.work := by
    intro hlt
    have := Bool.toNat_le (s.moves (.dispatcher timeout))
    omega
  unfold stepDispatcher at ht
  split at ht
  · next hd =>
    cases ht
    exact work_popInbound hd
  · next item hd =>
    cases ht
    exact hbusy (work_routeItem hd)
  · next item queueId retryCount op hd =>
    apply hbusy
    apply work_pushItem _ hd ht
    rintro rfl
    exact h.room item queueId retryCount .dlqIncoming hd
  · next item hd =>
    cases ht
    apply hbusy
    simp only [work, hd, DispatcherPc.work, EventBusMulti.heldCount, EventBusMulti.held]
    omega

private theorem work_consume {q : QueueId} (ht : s.consume q = some t) : t.work < s.work := by
  obtain ⟨⟨item, bus⟩, hpop, rfl⟩ := Option.map_eq_some_iff.mp ht
  obtain ⟨hheld, hothers⟩ := EventBusMulti.pop_held hpop
  simp only [work, EventBusMulti.heldCount]
  cases q with
  | realtime =>
    rw [hothers .transactional (by decide), hothers .batch (by decide), hheld, List.countP_cons]
    simp only [if_true]
    omega
  | transactional =>
    rw [hothers .realtime (by decide), hothers .batch (by decide), hheld, List.countP_cons]
    simp only [if_true]
    omega
  | batch =>
    rw [hothers .realtime (by decide), hothers .transactional (by decide), hheld,
      List.countP_cons]
    simp only [if_true]
    omega

/-- A drop takes something out of a queue that is not empty. -/
private theorem takeBatch_pos {bus : EventBusMulti Item} {q : QueueId} (hq : q ≠ .realtime)
    (h : bus.held q ≠ []) : (bus.takeBatch q).1 ≠ [] := by
  have htake : ∀ dq : List Item, dq ≠ [] → dq.take (min dropBatchSize dq.length) ≠ [] := by
    intro dq hdq
    rw [ne_eq, List.take_eq_nil_iff, not_or]
    refine ⟨?_, hdq⟩
    have := List.length_pos_iff.mpr hdq
    simp only [dropBatchSize]
    omega
  cases q with
  | realtime => exact absurd rfl hq
  | transactional => exact htake _ h
  | batch => exact htake _ h

private theorem work_dropTake {q : QueueId} (ht : s.dropTake q = some t) :
    t.work + (s.moves (.dropTake q)).toNat ≤ s.work := by
  have hq : q ≠ .realtime := by
    rintro rfl
    cases ht
  have hcount := s.bus.takeBatch_heldCount q fun _ ↦ true
  have ht' : t = { s with
      bus := (s.bus.takeBatch q).2, droppers := s.droppers ++ [(s.bus.takeBatch q).1] } := by
    cases q with
    | realtime => exact absurd rfl hq
    | transactional =>
      cases ht
      rfl
    | batch =>
      cases ht
      rfl
  have hmoves : (s.moves (.dropTake q)).toNat ≤ (s.bus.takeBatch q).1.length := by
    by_cases he : s.bus.held q = []
    · simp [moves, he]
    · have hpos := List.length_pos_iff.mpr (takeBatch_pos hq he)
      have := Bool.toNat_le (s.moves (.dropTake q))
      omega
  rw [List.countP_true] at hcount
  subst ht'
  simp only [work, List.flatten_append, List.flatten_singleton, List.length_append]
  omega

private theorem length_flatten_eraseIdx (batches : List (List Item)) (i : Nat)
    {batch : List Item} (h : batches[i]? = some batch) :
    (batches.eraseIdx i).flatten.length + batch.length = batches.flatten.length := by
  have := countP_flatten_eraseIdx (fun _ ↦ true) batches i h
  simpa only [List.countP_true] using this

private theorem work_dropFlush {index : Nat} (ht : s.dropFlush index = some t) :
    t.work + (s.moves (.dropFlush index)).toNat ≤ s.work := by
  obtain ⟨batch, hbatch, rfl⟩ := Option.map_eq_some_iff.mp ht
  have hlen := length_flatten_eraseIdx s.droppers index hbatch
  have hbus : (if batch.isEmpty then s.bus else s.bus.flushBatch batch).heldCount
      (fun _ ↦ true) = s.bus.heldCount fun _ ↦ true := by
    split <;> rfl
  have hmoves : (s.moves (.dropFlush index)).toNat ≤ batch.length := by
    rw [moves, hbatch]
    cases batch <;> simp
  simp only [work, hbus]
  omega

end Pipeline

/-- With ingest stopped, the remaining threads pay for every step that moves an event. -/
theorem pipeline_pays (topicTable : Option TopicTable)
    (buffer : Fin realtimeCapacity.val → Item) :
    (pipeline topicTable buffer).Pays Pipeline.Inv (fun l ↦ l.isIngest = false) Pipeline.moves
      Pipeline.work where
  keeps _ _ _ hi _ hs := hi.step hs
  pays s l t hi hl hs := by
    cases l with
    | tryPush evt => cases hl
    | dispatcher timeout => exact Pipeline.work_stepDispatcher hi hs
    | consume queueId => exact Pipeline.work_consume hs
    | dropTake queueId => exact Pipeline.work_dropTake hs
    | dropFlush index => exact Pipeline.work_dropFlush hs

namespace EventBusMulti

/-- A queue that holds an event has one to give. -/
theorem pop_isSome_of_held {bus : EventBusMulti Item} {q : QueueId} (h : bus.held q ≠ []) :
    (bus.pop q).isSome := by
  cases q with
  | realtime =>
    rcases bus.realtimeBus.ringBuffer.pop_contents with ⟨hempty, -⟩ | ⟨item, hitem, -⟩
    · exact absurd hempty h
    · rw [pop]
      split
      · rfl
      · next he =>
        rw [he] at hitem
        cases hitem
  | transactional =>
    change bus.transactionalBus.dq ≠ [] at h
    simp only [pop, Q.pop, Option.isSome_map]
    split
    · contradiction
    · rfl
  | batch =>
    change bus.batchBus.dq ≠ [] at h
    simp only [pop, Q.pop, Option.isSome_map]
    split
    · contradiction
    · rfl

end EventBusMulti

namespace Pipeline

variable {s : Pipeline} {topicTable : Option TopicTable}

/-- With its wait over, the dispatcher has a step. -/
theorem stepDispatcher_isSome (s : Pipeline) :
    (s.stepDispatcher topicTable true).isSome := by
  unfold stepDispatcher
  split
  · rfl
  · rfl
  · rw [pushItem, Option.isSome_map]
    exact s.bus.pushOp_true_isSome _ _ _
  · rfl

private theorem exists_batch (h : s.droppers.flatten ≠ []) :
    ∃ i t, s.dropFlush i = some t ∧ s.moves (.dropFlush i) = true := by
  rw [ne_eq, List.flatten_eq_nil_iff] at h
  push Not at h
  obtain ⟨batch, hmem, hne⟩ := h
  obtain ⟨i, hi⟩ := List.getElem?_of_mem hmem
  refine ⟨i, _, by rw [dropFlush, hi]; rfl, ?_⟩
  rw [moves, hi]
  cases batch with
  | nil => exact absurd rfl hne
  | cons item batch => rfl

/-- As long as an event is anywhere on its way, a thread other than an ingest thread has a step
that moves one. -/
theorem exists_moving_step (h : ¬s.Empty) :
    ∃ l t, l.isIngest = false ∧ s.moves l = true ∧ s.step topicTable l = some t := by
  by_cases hidle : s.dispatcher.isIdle && s.inbound.isEmpty
  · rw [Bool.and_eq_true, List.isEmpty_iff] at hidle
    by_cases hheld : ∃ q, s.bus.held q ≠ []
    · obtain ⟨q, hq⟩ := hheld
      have hpop : (s.consume q).isSome := by
        rw [consume, Option.isSome_map]
        exact EventBusMulti.pop_isSome_of_held hq
      obtain ⟨t, ht⟩ := Option.isSome_iff_exists.mp hpop
      exact ⟨.consume q, t, rfl, rfl, ht⟩
    · have hdroppers : s.droppers.flatten ≠ [] := by
        intro hflat
        apply h
        refine ⟨hidle.2, ?_, ?_, hflat⟩
        · cases hd : s.dispatcher with
          | idle => rfl
          | _ =>
            rw [hd] at hidle
            cases hidle.1
        · intro q
          by_contra hq
          exact hheld ⟨q, hq⟩
      obtain ⟨i, t, hstep, hmoves⟩ := exists_batch hdroppers
      exact ⟨.dropFlush i, t, rfl, hmoves, hstep⟩
  · obtain ⟨t, ht⟩ : ∃ t, s.stepDispatcher topicTable true = some t :=
      Option.isSome_iff_exists.mp s.stepDispatcher_isSome
    refine ⟨.dispatcher true, t, rfl, ?_, ht⟩
    rw [moves, Bool.not_eq_true'] at *
    exact Bool.eq_false_iff.mpr hidle

/-- With nothing on its way every accepted event has been popped or is in the dead letter
queue. -/
private theorem Inv.delivered (h : s.Inv) (he : s.Empty) : s.Delivered := by
  obtain ⟨hinbound, hidle, hheld, hdroppers⟩ := he
  intro k hk
  have hone : custody Place.all s.ticketsAt k = 1 := by
    rw [s.custody_eq, h.count, if_pos hk]
  obtain ⟨p, -, hp, hothers⟩ := exists_place_of_custody (by decide) hone
  refine ⟨p, ?_, hp, fun q hq ↦ hothers q q.mem_all hq⟩
  cases p with
  | inbound => simp [ticketsAt, itemsAt, hinbound] at hp
  | hands => simp [ticketsAt, itemsAt, hidle, hdroppers, DispatcherPc.hands] at hp
  | bus q => simp [ticketsAt, itemsAt, hheld] at hp
  | popped q => exact .inl ⟨q, rfl⟩
  | dlq => exact .inr rfl

end Pipeline

/-- Backpressure never turns into a standstill. Once ingest has stopped, whatever thread performs
the next operation on a queue, a run takes no more steps that move an event than the events
accepted so far account for; and where no such step is left, the queues and all hands are empty
and every accepted event has been popped by exactly one consumer or pushed to the dead letter
queue exactly once. -/
theorem pipeline_drains (topicTable : Option TopicTable)
    (buffer : Fin realtimeCapacity.val → Item) (s t : Pipeline)
    (h : (pipeline topicTable buffer).Reachable s) (ls : List PipelineLabel)
    (hls : ∀ l ∈ ls, l.isIngest = false) (hr : (pipeline topicTable buffer).run s ls = some t) :
    (pipeline topicTable buffer).countRun Pipeline.moves s ls ≤ s.work ∧
    ((∀ l, l.isIngest = false → t.moves l = true → t.step topicTable l = none) →
      t.Empty ∧ t.Delivered) := by
  obtain ⟨hinv, hpaid⟩ :=
    (pipeline_pays topicTable buffer).run (Pipeline.Inv.of_reachable h) hls hr
  refine ⟨by omega, ?_⟩
  intro hstuck
  have hempty : t.Empty := by
    by_contra hne
    obtain ⟨l, t', hl, hmoves, hstep⟩ :
        ∃ l t', l.isIngest = false ∧ t.moves l = true ∧ t.step topicTable l = some t' :=
      Pipeline.exists_moving_step hne
    rw [hstuck l hl hmoves] at hstep
    cases hstep
  exact ⟨hempty, hinv.delivered hempty⟩

/-- A CRITICAL event moves through the dispatcher and the ring in five steps. -/
theorem pipeline_drains_critical : ∃ s t : Pipeline,
    (pipeline none fun _ ↦ ⟨0, ⟨⟨.tcp, .batch, 0, 0, 0, 0, 0⟩, [], [], [], 0⟩⟩).Reachable s ∧
    (pipeline none fun _ ↦ ⟨0, ⟨⟨.tcp, .batch, 0, 0, 0, 0, 0⟩, [], [], [], 0⟩⟩).run s
      (List.replicate 4 (.dispatcher false) ++ [.consume .realtime]) = some t ∧ s.work = 28 ∧
    (pipeline none fun _ ↦ ⟨0, ⟨⟨.tcp, .batch, 0, 0, 0, 0, 0⟩, [], [], [], 0⟩⟩).countRun
      Pipeline.moves s (List.replicate 4 (.dispatcher false) ++ [.consume .realtime]) ≤ s.work := by
  let m := pipeline none fun _ ↦ ⟨0, ⟨⟨.tcp, .batch, 0, 0, 0, 0, 0⟩, [], [], [], 0⟩⟩
  have hrun : (m.run m.start
      [.tryPush (some ⟨⟨.tcp, .critical, 1, 0, 0, 0, 0⟩, [], [], [], 0⟩)]).map Pipeline.work =
      some 28 := by
    decide +kernel
  obtain ⟨s, hrun, hs⟩ := Option.map_eq_some_iff.mp hrun
  have hrest : ((m.run m.start
      [.tryPush (some ⟨⟨.tcp, .critical, 1, 0, 0, 0, 0⟩, [], [], [], 0⟩)]).bind fun s ↦
      m.run s (List.replicate 4 (.dispatcher false) ++ [.consume .realtime])).isSome := by
    decide +kernel
  rw [hrun] at hrest
  obtain ⟨t, ht⟩ := Option.isSome_iff_exists.mp hrest
  have hreach := Machine.Reachable.run .start hrun
  exact ⟨s, t, hreach, ht, hs, (pipeline_drains _ _ s t hreach _ (by decide) ht).1⟩

end EventStreamCore.Events
