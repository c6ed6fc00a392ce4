import EventStreamCore.Events.Pressure
import EventStreamCore.Queues.MpscThreads

/-!
# Order from a producer to a consumer

The path of an event with the inbound queue cut at its atomic accesses: any number of ingest
threads in `MpscQueue::push`, `include/eventstream/core/queues/mpsc.hpp:36–56`, the dispatch loop
with its `MpscQueue::pop`, `mpsc.hpp:65–83`, its routing and its retries,
`src/core/events/dispatcher.cpp:84–130`, the consumers of the bus, and `dropBatchFromQueue`. An
event carries the thread that pushed it and how many calls of `push` that thread had made before.
-/

namespace EventStreamCore.Events
open EventStreamCore.Lib EventStreamCore.Queues

universe u v

/-- An event with the thread that pushed it and the number of that call. -/
structure Posted (ι : Type v) where
  producer : ι
  number : Nat
  event : Event

/-- What identifies a pushed event. -/
def Posted.key {ι : Type v} (x : Posted ι) : ι × Nat := (x.producer, x.number)

/-- Where `dispatchLoop` stands: in the `pop` of the inbound queue, about to route, in a `push`, or
giving up. -/
inductive DispatchPc (ι : Type v) where
  | popping
  | route (x : Posted ι)
  | push (x : Posted ι) (queueId : QueueId) (retryCount : Nat) (op : PushOp (Posted ι))
  | dlq (x : Posted ι)

/-- The event `dispatchLoop` is working on. -/
def DispatchPc.hand {ι : Type v} : DispatchPc ι → List (Posted ι)
  | .popping => []
  | .route x => [x]
  | .push x _ _ _ => [x]
  | .dlq x => [x]

/-- The inbound queue with its threads, the dispatch loop, the bus, and what each consumer
popped. -/
structure EndToEnd (ι : Type v) where
  inbound : MpscQueue.State ι (Option (Posted ι))
  dispatcher : DispatchPc ι
  bus : EventBusMulti (Posted ι)
  popped : QueueId → List (Posted ι)

/-- What a step is: a call of `push` on the inbound queue, an access of an ingest thread, a step of
the dispatch loop, a `pop` by the consumer of a queue, or a `dropBatchFromQueue`. -/
inductive EndToEndLabel (ι : Type v) where
  | callPush (i : ι) (evt : Option Event)
  | alloc (i : ι) (node : Nat)
  | producer (i : ι)
  | dispatcher (timeout : Bool)
  | consume (queueId : QueueId)
  | dropBatchFromQueue (queueId : QueueId)

namespace EndToEnd

variable {ι : Type v} [DecidableEq ι]

/-- A step of an ingest thread. -/
def ingest (s : EndToEnd ι) (l : MpscQueue.Label ι (Option (Posted ι))) : Option (EndToEnd ι) :=
  (s.inbound.step Dispatcher.inboundCapacity l).map fun inbound ↦ { s with inbound }

/-- Where `dispatchLoop` goes after an access of its `pop`: on to the event that `pop` returned,
or back to `pop` when there was none or a null pointer. -/
def afterPop (before after : MpscQueue.State ι (Option (Posted ι))) : DispatchPc ι :=
  match after.returns.drop before.returns.length with
  | [some (some (some x))] => .route x
  | _ => .popping

/-- One operation of `event_bus_.push` in the retry loop. -/
def pushPosted (s : EndToEnd ι) (x : Posted ι) (queueId : QueueId) (retryCount : Nat)
    (timeout : Bool) (op : PushOp (Posted ι)) : Option (EndToEnd ι) :=
  (s.bus.pushOp queueId x timeout op).map fun (bus, progress) ↦
    { s with
      bus
      dispatcher := match progress with
        | .running op' => .push x queueId retryCount op'
        | .returned true => .popping
        | .returned false =>
          if retryCount + 1 < Dispatcher.maxRetries
          then .push x queueId (retryCount + 1) (.first queueId) else .dlq x }

/-- One step of `dispatchLoop`. -/
def stepDispatcher (topicTable : Option TopicTable) (s : EndToEnd ι) (timeout : Bool) :
    Option (EndToEnd ι) :=
  match s.dispatcher with
  | .popping =>
    s.inbound.stepConsumer.map fun inbound ↦
      { s with inbound, dispatcher := afterPop s.inbound inbound }
  | .route x =>
    let (event, queueId) := Dispatcher.route topicTable s.bus.realtimeBus.pressure x.event
    some { s with dispatcher := .push { x with event } queueId 0 (.first queueId) }
  | .push x queueId retryCount op => s.pushPosted x queueId retryCount timeout op
  | .dlq x =>
    some { s with bus := { s.bus with dlq := s.bus.dlq.push x }, dispatcher := .popping }

/-- One step. -/
def step (topicTable : Option TopicTable) (s : EndToEnd ι) : EndToEndLabel ι → Option (EndToEnd ι)
  | .callPush i evt =>
    s.ingest (.callPush i (evt.map fun event ↦ ⟨i, (s.inbound.calls i).length, event⟩))
  | .alloc i node => s.ingest (.alloc i node)
  | .producer i => s.ingest (.producer i)
  | .dispatcher timeout => s.stepDispatcher topicTable timeout
  | .consume queueId =>
    (s.bus.pop queueId).map fun (x, bus) ↦
      { s with bus, popped := Function.update s.popped queueId (s.popped queueId ++ [x]) }
  | .dropBatchFromQueue queueId => some { s with bus := (s.bus.dropBatchFromQueue queueId).1 }

/-- The events the dispatch loop has popped from the inbound queue. -/
def received (s : EndToEnd ι) : List (Posted ι) := s.inbound.popped.filterMap Option.join

end EndToEnd

/-- All runs of the ingest threads `ι`, the dispatch loop and the consumers. -/
def endToEnd (ι : Type v) [DecidableEq ι] (topicTable : Option TopicTable) (dummy : Nat)
    (buffer : Fin realtimeCapacity.val → Posted ι) : Machine (EndToEnd ι) (EndToEndLabel ι) where
  start := ⟨.initial dummy, .popping, .initial buffer, fun _ ↦ []⟩
  step := EndToEnd.step topicTable

/-! ### The bus keeps the order -/

namespace EventBusMulti

variable {α : Type u} {bus bus' : EventBusMulti α}

/-- What is left in the hands of a `push`. -/
def handAfter (evt : α) : Progress (PushOp α) Bool → List α
  | .returned true => []
  | _ => [evt]

private theorem append_hand_sublist (xs : List α) (evt : α) (progress : Progress (PushOp α) Bool) :
    (xs ++ handAfter evt progress).Sublist (xs ++ [evt]) := by
  refine List.Sublist.append (List.Sublist.refl xs) ?_
  unfold handAfter
  split
  · exact List.nil_sublist _
  · exact List.Sublist.refl _

/-- A ring `push` appends its event or leaves the ring as it is. -/
private theorem ring_push_held {ring : SpscRingBuffer realtimeCapacity α} {evt : α} {ok : Bool}
    (h : bus.realtimeBus.ringBuffer.push evt = (ring, ok)) :
    (ring.contents ++ (if ok then [] else [evt])).Sublist (bus.held .realtime ++ [evt]) := by
  obtain ⟨-, hfull⟩ | ⟨-, hok, hcontents⟩ := bus.realtimeBus.ringBuffer.push_contents evt
  · rw [h] at hfull
    cases hfull
    exact List.Sublist.refl _
  · rw [h] at hok hcontents
    dsimp only at hok hcontents
    rw [hok, hcontents]
    simp only [if_true, List.append_nil]
    exact List.Sublist.refl _

/-- A ring `pop` takes the first event out or leaves the ring as it is. -/
private theorem ring_pop_held {ring : SpscRingBuffer realtimeCapacity α} {popped : Option α}
    (h : bus.realtimeBus.ringBuffer.pop = (ring, popped)) :
    ring.contents.Sublist (bus.held .realtime) := by
  obtain ⟨-, hempty⟩ | ⟨old, -, hcontents⟩ := bus.realtimeBus.ringBuffer.pop_contents
  · rw [h] at hempty
    cases hempty
    exact List.Sublist.refl _
  · rw [h] at hcontents
    dsimp only at hcontents
    change ring.contents.Sublist bus.realtimeBus.ringBuffer.contents
    rw [hcontents]
    exact List.sublist_cons_self _ _

/-- The locked part of `push` appends its event or does nothing. -/
private theorem lockedPush_held {q : QueueId} {evt : α} {queue : Q α} {timeout : Bool}
    (h : (bus.getQueue q).push evt timeout = .pushed queue) :
    ((bus.setQueue q queue).held (PushOp.lockedPush.queue (α := α) q)).Sublist
      (bus.held (PushOp.lockedPush.queue (α := α) q) ++ [evt]) := by
  have hdq := (Q.push_pushed h).1
  cases q <;>
    · change queue.dq.Sublist _
      rw [hdq]
      exact List.Sublist.refl _

/-- An operation of `push` puts its event behind the others of a queue or keeps it in its hands,
and at most takes events out. -/
theorem pushOp_held_sublist {q : QueueId} {evt : α} {timeout : Bool} {op : PushOp α}
    {progress : Progress (PushOp α) Bool}
    (h : bus.pushOp q evt timeout op = some (bus', progress)) (q' : QueueId) :
    (bus'.held q' ++ handAfter evt progress).Sublist (bus.held q' ++ [evt]) := by
  by_cases hq : q' = op.queue q
  · subst hq
    cases op with
    | measure =>
      cases h
      exact append_hand_sublist _ _ _
    | ringPush =>
      rw [pushOp] at h
      split at h <;> cases h
      · next ring hpush => exact ring_push_held hpush
      · next ring hpush => exact ring_push_held hpush
    | ringPop =>
      rw [pushOp] at h
      split at h <;> cases h
      · next ring old hpop => exact (ring_pop_held hpop).append (List.Sublist.refl _)
      · next ring hpop => exact (ring_pop_held hpop).append (List.Sublist.refl _)
    | dlqOld old =>
      cases h
      exact append_hand_sublist _ _ _
    | ringRetry =>
      rw [pushOp] at h
      split at h <;> cases h
      · next ring hpush => exact ring_push_held hpush
      · next ring hpush => exact ring_push_held hpush
    | dlqIncoming =>
      cases h
      exact append_hand_sublist _ _ _
    | lockedPush =>
      rw [pushOp] at h
      split at h
      · cases h
      · cases h
        exact append_hand_sublist _ _ _
      · cases h
        exact append_hand_sublist _ _ _
      · next queue hpush =>
        cases h
        change ((bus.setQueue q queue).held _ ++ []).Sublist _
        rw [List.append_nil]
        exact lockedPush_held hpush
  · rw [pushOp_held_of_ne h hq]
    exact append_hand_sublist _ _ _

private theorem popBatch_held_sublist (n : Nat) (bus : EventBusMulti α) (q : QueueId) :
    ((bus.popBatch n).2.held q).Sublist (bus.held q) := by
  induction n generalizing bus with
  | zero => exact List.Sublist.refl _
  | succ n ih =>
    unfold popBatch
    split
    · exact List.Sublist.refl _
    · next ring evt hpop =>
      refine (ih (bus.setRing ring)).trans ?_
      cases q with
      | realtime => exact ring_pop_held hpop
      | transactional => exact List.Sublist.refl _
      | batch => exact List.Sublist.refl _

/-- `dropBatchFromQueue` only takes events out. -/
theorem dropBatchFromQueue_held_sublist (bus : EventBusMulti α) (q q' : QueueId) :
    ((bus.dropBatchFromQueue q).1.held q').Sublist (bus.held q') := by
  have hflush : ∀ taken : List α × EventBusMulti α,
      (if taken.1.isEmpty then taken.2 else taken.2.flushBatch taken.1).held q' =
        taken.2.held q' := by
    intro taken
    split
    · rfl
    · cases q' <;> rfl
  unfold dropBatchFromQueue
  change (List.Sublist (EventBusMulti.held (ite _ _ _) q') _)
  rw [hflush]
  split
  · exact popBatch_held_sublist _ _ _
  · cases q <;> cases q' <;>
      first | exact List.Sublist.refl _ | exact List.drop_sublist _ _

end EventBusMulti

/-! ### The inbound queue hands over in order -/

section Inbound

variable {ι : Type v} {α : Type u}

/-- An access of a `pop` returns at most one value. -/
private theorem returns_stepConsumer {s t : MpscQueue.State ι α} (h : s.stepConsumer = some t) :
    t.calls = s.calls ∧ (t.returns = s.returns ∨ ∃ r, t.returns = s.returns ++ [r]) := by
  rw [MpscQueue.State.stepConsumer] at h
  split at h
  · cases h
    exact ⟨rfl, .inl rfl⟩
  · obtain ⟨n, -, rfl⟩ := Option.map_eq_some_iff.mp h
    split
    · exact ⟨rfl, .inr ⟨_, rfl⟩⟩
    · exact ⟨rfl, .inl rfl⟩
  · obtain ⟨n, -, rfl⟩ := Option.map_eq_some_iff.mp h
    exact ⟨rfl, .inl rfl⟩
  · cases h
    exact ⟨rfl, .inl rfl⟩
  · cases h
    exact ⟨rfl, .inl rfl⟩
  · cases h
    exact ⟨rfl, .inr ⟨_, rfl⟩⟩

variable [DecidableEq ι]

/-- A step of an ingest thread pops nothing, and only `callPush` makes a call. -/
private theorem returns_step {capacity : Nat} {s t : MpscQueue.State ι α}
    {l : MpscQueue.Label ι α} (h : s.step capacity l = some t) (hl : l ≠ .consumer) :
    t.returns = s.returns ∧ (t.calls = s.calls ∨
      ∃ i item, l = .callPush i item ∧
        t.calls = Function.update s.calls i (s.calls i ++ [item])) := by
  cases l with
  | consumer => exact absurd rfl hl
  | callPush i item =>
    rw [MpscQueue.State.step] at h
    split at h
    · cases h
      refine ⟨?_, .inr ⟨i, item, rfl, ?_⟩⟩
      · rw [MpscQueue.State.callPush]
        split <;> rfl
      · rw [MpscQueue.State.callPush]
        split <;> rfl
    · cases h
  | alloc i node =>
    rw [MpscQueue.State.step] at h
    split at h
    · cases h
      exact ⟨rfl, .inl rfl⟩
    · cases h
  | producer i =>
    rw [MpscQueue.State.step, MpscQueue.State.stepProducer] at h
    split at h
    · cases h
    · cases h
    · cases h
      exact ⟨rfl, .inl rfl⟩
    · obtain ⟨n, -, rfl⟩ := Option.map_eq_some_iff.mp h
      exact ⟨rfl, .inl rfl⟩
    · cases h
      exact ⟨rfl, .inl rfl⟩

end Inbound

namespace EndToEnd

variable {ι : Type v} [DecidableEq ι] {s t : EndToEnd ι}

omit [DecidableEq ι] in
/-- What a `pop` of the inbound queue returns goes into the hands of the dispatch loop. -/
private theorem received_stepConsumer {inbound : MpscQueue.State ι (Option (Posted ι))}
    (h : s.inbound.stepConsumer = some inbound) :
    inbound.popped.filterMap Option.join = s.received ++ (afterPop s.inbound inbound).hand := by
  rw [received, MpscQueue.State.popped, MpscQueue.State.popped, afterPop]
  obtain ⟨-, hret | ⟨r, hret⟩⟩ := returns_stepConsumer h
  · rw [hret, List.drop_length]
    exact (List.append_nil _).symm
  · rw [hret, List.drop_left, List.filterMap_append, List.filterMap_append]
    congr 1
    rcases r with _ | _ | _ | x <;> rfl

/-- Every call of `push` carries its thread and its number, and what a consumer popped, a queue
holds and the dispatch loop works on came out of the inbound queue in this order. -/
structure Inv (dummy : Nat) (s : EndToEnd ι) : Prop where
  inbound : (MpscQueue.threads ι (Option (Posted ι)) Dispatcher.inboundCapacity dummy).Reachable
    s.inbound
  numbered : ∀ i n (x : Posted ι), (s.inbound.calls i)[n]? = some (some x) →
    x.producer = i ∧ x.number = n
  order : ∀ q, ((s.popped q).map Posted.key ++ (s.bus.held q ++ s.dispatcher.hand).map
    Posted.key).Sublist (s.received.map Posted.key)

/-- Moving events from the hands of the dispatch loop to the end of a queue, and giving events up,
keeps the order. -/
private theorem Inv.keep {dummy : Nat} (h : s.Inv dummy) {dispatcher : DispatchPc ι}
    {bus : EventBusMulti (Posted ι)}
    (hkeep : ∀ q, ((bus.held q ++ dispatcher.hand).map Posted.key).Sublist
      ((s.bus.held q ++ s.dispatcher.hand).map Posted.key)) :
    ({ s with dispatcher, bus } : EndToEnd ι).Inv dummy := by
  refine ⟨h.inbound, h.numbered, fun q ↦ ?_⟩
  exact List.Sublist.trans (List.Sublist.append (List.Sublist.refl _) (hkeep q)) (h.order q)

/-- A step of an ingest thread hands nothing over. -/
private theorem Inv.ingest {dummy : Nat} {l : MpscQueue.Label ι (Option (Posted ι))}
    (h : s.Inv dummy) (hs : s.ingest l = some t) (hl : l ≠ .consumer)
    (hnew : ∀ i x, l = .callPush i (some x) → x.producer = i ∧
      x.number = (s.inbound.calls i).length) : t.Inv dummy := by
  obtain ⟨inbound, hstep, rfl⟩ := Option.map_eq_some_iff.mp hs
  obtain ⟨hret, hcalls⟩ := returns_step hstep hl
  refine ⟨h.inbound.step hstep, ?_, ?_⟩
  · intro i n x hx
    obtain hsame | ⟨j, item, rfl, hcall⟩ := hcalls
    · rw [hsame] at hx
      exact h.numbered i n x hx
    · rw [hcall] at hx
      by_cases hi : i = j
      · subst hi
        rw [Function.update_self, List.getElem?_append] at hx
        split at hx
        · exact h.numbered i n x hx
        · next hn =>
          rw [List.getElem?_singleton] at hx
          split at hx
          · cases hx
            obtain ⟨hproducer, hnumber⟩ := hnew i x rfl
            exact ⟨hproducer, by omega⟩
          · cases hx
      · rw [Function.update_of_ne hi] at hx
        exact h.numbered i n x hx
  · intro q
    change List.Sublist _ (((inbound.returns.filterMap id).filterMap Option.join).map _)
    rw [hret]
    exact h.order q

/-- A step of the dispatch loop hands on the event in its hands, keeps it, or gives it up. -/
private theorem Inv.stepDispatcher {dummy : Nat} {topicTable : Option TopicTable}
    {timeout : Bool} (h : s.Inv dummy) (hs : s.stepDispatcher topicTable timeout = some t) :
    t.Inv dummy := by
  rw [EndToEnd.stepDispatcher] at hs
  split at hs
  · next hpc =>
    obtain ⟨inbound, hstep, rfl⟩ := Option.map_eq_some_iff.mp hs
    refine ⟨h.inbound.step (l := .consumer) hstep, ?_, fun q ↦ ?_⟩
    · rw [(returns_stepConsumer hstep).1]
      exact h.numbered
    · have horder := h.order q
      rw [hpc, DispatchPc.hand, List.append_nil] at horder
      change List.Sublist _ ((inbound.popped.filterMap Option.join).map Posted.key)
      rw [received_stepConsumer hstep, List.map_append, List.map_append, ← List.append_assoc]
      exact List.Sublist.append horder (List.Sublist.refl _)
  · next x hpc =>
    cases hs
    apply h.keep
    intro q
    rw [hpc, List.map_append, List.map_append]
    exact List.Sublist.refl _
  · next x queueId retryCount op hpc =>
    obtain ⟨⟨bus, progress⟩, hop, rfl⟩ := Option.map_eq_some_iff.mp hs
    apply h.keep
    intro q
    rw [hpc]
    refine List.Sublist.map _ ?_
    have hpush := EventBusMulti.pushOp_held_sublist hop q
    match progress with
    | .running op' => exact hpush
    | .returned true => exact hpush
    | .returned false =>
      dsimp only
      split <;> exact hpush
  · next x hpc =>
    cases hs
    apply h.keep
    intro q
    rw [hpc]
    exact List.Sublist.map _ (List.Sublist.append (List.Sublist.refl _) (List.nil_sublist _))

/-- Every step keeps the order. -/
private theorem Inv.step {dummy : Nat} {topicTable : Option TopicTable} {l : EndToEndLabel ι}
    (h : s.Inv dummy) (hs : s.step topicTable l = some t) : t.Inv dummy := by
  cases l with
  | callPush i evt =>
    refine h.ingest hs nofun ?_
    intro j x hx
    simp only [MpscQueue.Label.callPush.injEq, Option.map_eq_some_iff] at hx
    obtain ⟨rfl, event, -, rfl⟩ := hx
    exact ⟨rfl, rfl⟩
  | alloc i node => exact h.ingest hs nofun nofun
  | producer i => exact h.ingest hs nofun nofun
  | dispatcher timeout => exact h.stepDispatcher hs
  | consume queueId =>
    obtain ⟨⟨x, bus⟩, hpop, rfl⟩ := Option.map_eq_some_iff.mp hs
    obtain ⟨hheld, hothers⟩ := EventBusMulti.pop_held hpop
    refine ⟨h.inbound, h.numbered, fun q ↦ ?_⟩
    have horder := h.order q
    by_cases hq : q = queueId
    · subst hq
      change ((Function.update s.popped q _ q).map _ ++ (bus.held q ++ _).map _).Sublist _
      rw [Function.update_self, List.map_append, List.append_assoc]
      rw [hheld] at horder
      exact horder
    · change ((Function.update s.popped queueId _ q).map _ ++ (bus.held q ++ _).map _).Sublist _
      rw [Function.update_of_ne hq, hothers q hq]
      exact horder
  | dropBatchFromQueue queueId =>
    cases hs
    apply h.keep
    intro q
    refine List.Sublist.map _ (List.Sublist.append ?_ (List.Sublist.refl _))
    exact EventBusMulti.dropBatchFromQueue_held_sublist s.bus queueId q

/-- A new bus holds nothing. -/
private theorem Inv.start (topicTable : Option TopicTable) (dummy : Nat)
    (buffer : Fin realtimeCapacity.val → Posted ι) :
    (endToEnd ι topicTable dummy buffer).start.Inv dummy := by
  refine ⟨.start, nofun, fun q ↦ ?_⟩
  cases q <;> exact List.Sublist.refl _

/-- The order is kept in every run. -/
theorem Inv.of_reachable {topicTable : Option TopicTable} {dummy : Nat}
    {buffer : Fin realtimeCapacity.val → Posted ι}
    (h : (endToEnd ι topicTable dummy buffer).Reachable s) : s.Inv dummy :=
  h.invariant (Inv.start topicTable dummy buffer) fun _ _ _ hi hs ↦ hi.step hs

/-- What holds between the values of one producer in a log holds in the whole log between values
of the same producer. -/
private theorem pairwise_of_fromProducer {α : Type u} {R : α → α → Prop} {log : List (ι × α)}
    (h : ∀ i, (MpscQueue.fromProducer i log).Pairwise R) :
    log.Pairwise fun x y ↦ x.1 = y.1 → R x.2 y.2 := by
  rw [List.pairwise_iff_forall_sublist]
  intro x y hxy heq
  have hi := h x.1
  rw [MpscQueue.fromProducer, List.pairwise_map, List.pairwise_filter,
    List.pairwise_iff_forall_sublist] at hi
  exact hi hxy (by simp) (by simp [heq])

/-- The values one thread put into the inbound queue are values it called `push` with. -/
private theorem fromProducer_sublist_calls {dummy : Nat} (h : s.Inv dummy) (i : ι) :
    (MpscQueue.fromProducer i s.inbound.exchanged).Sublist (s.inbound.calls i) := by
  have hp := MpscQueue.State.Program.of_reachable h.inbound
  refine List.Sublist.trans ?_ (hp.calls i)
  rw [← hp.admitted i]
  exact List.sublist_append_left _ _

private theorem numbered_of_exchanged {dummy : Nat} (h : s.Inv dummy) {i : ι} {x : Posted ι}
    (hx : (i, some x) ∈ s.inbound.exchanged) : x.producer = i := by
  have hmem : some x ∈ MpscQueue.fromProducer i s.inbound.exchanged :=
    List.mem_map.mpr ⟨(i, some x), List.mem_filter.mpr ⟨hx, by simp⟩, rfl⟩
  obtain ⟨n, hn⟩ := List.mem_iff_getElem?.mp ((fromProducer_sublist_calls h i).subset hmem)
  exact (h.numbered i n x hn).1

/-- Each thread numbers its calls of `push` upwards. -/
private theorem calls_pairwise {dummy : Nat} (h : s.Inv dummy) (i : ι) :
    (s.inbound.calls i).Pairwise fun a b ↦ ∀ x ∈ a, ∀ y ∈ b, x.number < y.number := by
  rw [List.pairwise_iff_getElem]
  intro m n hm hn hmn x hx y hy
  have hxm := (h.numbered i m x (by rw [List.getElem?_eq_getElem hm, hx])).2
  have hyn := (h.numbered i n y (by rw [List.getElem?_eq_getElem hn, hy])).2
  omega

/-- The dispatch loop receives the events of one thread in the order of its calls. -/
private theorem received_pairwise {dummy : Nat} (h : s.Inv dummy) :
    s.received.Pairwise fun x y ↦ x.producer = y.producer → x.number < y.number := by
  have hsub : s.received.Sublist (s.inbound.exchanged.filterMap Prod.snd) := by
    obtain ⟨cells, hinv⟩ := MpscQueue.State.Inv.of_reachable h.inbound
    obtain ⟨rest, hvalues, -, -⟩ := hinv.values_eq
    have hjoin : s.inbound.exchanged.filterMap Prod.snd =
        s.inbound.values.filterMap Option.join := by
      rw [MpscQueue.State.values, List.filterMap_map]
      rfl
    rw [hjoin, hvalues]
    exact List.Sublist.filterMap _ (List.sublist_append_left _ _)
  refine List.Pairwise.sublist hsub ?_
  rw [List.pairwise_filterMap]
  refine List.Pairwise.imp_of_mem ?_ (pairwise_of_fromProducer fun i ↦
    (calls_pairwise h i).sublist (fromProducer_sublist_calls h i))
  rintro ⟨i, a⟩ ⟨j, b⟩ ha hb hlt x rfl y rfl hxy
  rw [numbered_of_exchanged h ha, numbered_of_exchanged h hb] at hxy
  exact hlt hxy x rfl y rfl

/-- What the consumer of a queue pops keeps the order of each thread. -/
private theorem popped_pairwise {dummy : Nat} (h : s.Inv dummy) (q : QueueId) :
    (s.popped q).Pairwise fun x y ↦ x.producer = y.producer → x.number < y.number := by
  have hkeys : ((s.popped q).map Posted.key).Sublist (s.received.map Posted.key) :=
    List.Sublist.trans (List.sublist_append_left _ _) (h.order q)
  have hreceived : (s.received.map Posted.key).Pairwise fun a b ↦ a.1 = b.1 → a.2 < b.2 := by
    rw [List.pairwise_map]
    exact received_pairwise h
  have hpopped := hreceived.sublist hkeys
  rw [List.pairwise_map] at hpopped
  exact hpopped

end EndToEnd

/-- The order of each ingest thread is kept to the end. In every run of the ingest threads through
the accesses of `MpscQueue::push`, the dispatch loop with its routing, retries and drops, and the
consumers of the bus, two events that one thread pushed and one consumer popped were popped in the
order they were pushed in. -/
theorem popped_in_push_order (ι : Type v) [DecidableEq ι] (topicTable : Option TopicTable)
    (dummy : Nat) (buffer : Fin realtimeCapacity.val → Posted ι) {s : EndToEnd ι}
    (h : (endToEnd ι topicTable dummy buffer).Reachable s) (q : QueueId) {m n : Nat}
    {x y : Posted ι} (hx : (s.popped q)[m]? = some x) (hy : (s.popped q)[n]? = some y)
    (hproducer : x.producer = y.producer) : x.number < y.number ↔ m < n := by
  have hpairwise := EndToEnd.popped_pairwise (EndToEnd.Inv.of_reachable h) q
  have hlt : ∀ {a b : Nat} {u w : Posted ι}, (s.popped q)[a]? = some u →
      (s.popped q)[b]? = some w → u.producer = w.producer → a < b → u.number < w.number := by
    intro a b u w hu hw huw hab
    obtain ⟨ha, rfl⟩ := List.getElem?_eq_some_iff.mp hu
    obtain ⟨hb, rfl⟩ := List.getElem?_eq_some_iff.mp hw
    exact List.pairwise_iff_getElem.mp hpairwise a b ha hb hab huw
  constructor
  · intro hnumber
    rcases Nat.lt_trichotomy m n with hmn | rfl | hnm
    · exact hmn
    · rw [hx] at hy
      cases hy
      exact absurd hnumber (Nat.lt_irrefl _)
    · have := hlt hy hx hproducer.symm hnm
      omega
  · exact hlt hx hy hproducer

/-- A thread pushes twice, and another one exchanges and links between the two; the first event
comes out first. -/
theorem popped_in_push_order_two_threads :
    let event : Event := ⟨⟨.tcp, .medium, 7, 0, 0, 0, 0⟩, [97], [], [], 0⟩
    let m := endToEnd Bool none 0 fun _ ↦ ⟨true, 0, event⟩
    ∃ s x y, m.Reachable s ∧ (s.popped .transactional)[0]? = some x ∧
      (s.popped .transactional)[2]? = some y ∧ x.key = (true, 0) ∧ y.key = (true, 1) ∧
      (x.number < y.number ↔ 0 < 2) := by
  intro event m
  have hrun : (m.run m.start
      (List.flatten [[.callPush true (some event), .callPush false (some event), .alloc false 7,
        .alloc true 3, .producer true, .producer false, .producer false, .producer true,
        .producer true, .callPush true (some event), .alloc true 5, .producer true,
        .producer true], List.replicate 24 (.dispatcher false),
        List.replicate 3 (.consume .transactional)])).map
      (fun s ↦ (s.popped .transactional).map Posted.key) =
        some [(true, 0), (false, 0), (true, 1)] := by
    decide +kernel
  obtain ⟨s, hrun, hs⟩ := Option.map_eq_some_iff.mp hrun
  match hpopped : s.popped .transactional with
  | [] => simp [hpopped] at hs
  | [_] => simp [hpopped] at hs
  | [_, _] => simp [hpopped] at hs
  | x :: z :: y :: rest =>
    simp only [hpopped, List.map_cons, List.cons.injEq] at hs
    obtain ⟨hx, -, hy, -⟩ := hs
    have hreach := Machine.Reachable.run .start hrun
    have hfirst : (s.popped .transactional)[0]? = some x := by rw [hpopped]; rfl
    have hthird : (s.popped .transactional)[2]? = some y := by rw [hpopped]; rfl
    refine ⟨s, x, y, hreach, hfirst, hthird, hx, hy, ?_⟩
    have hproducer : x.producer = y.producer :=
      (Prod.mk.inj hx).1.trans (Prod.mk.inj hy).1.symm
    exact popped_in_push_order Bool none 0 _ hreach .transactional hfirst hthird hproducer

end EventStreamCore.Events
