import EventStreamCore.Lib.Custody
import EventStreamCore.Events.Dispatcher

/-!
# From ingest to the processors

The whole path of an event at the granularity of its queue operations: `tryPush` by ingest
threads, `dispatchLoop` with its retries, the three consumers, and `dropBatchFromQueue` on
the two mutex-protected queues, in any interleaving. The histories record what each consumer
popped and what the bus and the dispatcher put into the dead letter queue. The k-th non-null
event accepted by `tryPush` carries the ticket k.
-/

namespace EventStreamCore.Events
open EventStreamCore.Lib EventStreamCore.Queues

/-- The queues, the dispatch thread, the batches taken by `dropBatchFromQueue` calls that
have not yet put them into the dead letter queue, and the histories. -/
structure Pipeline where
  inbound : List (Option Item)
  bus : EventBusMulti Item
  dispatcher : DispatcherPc
  droppers : List (List Item)
  nextTicket : Nat
  popped : QueueId → List Item
  dlqPushes : List Item

/-- What a step is. The timeout says whether a full TRANSACTIONAL queue lets the wait of
`push` expire; a drop is cut between its lock and its dead letter queue push. -/
inductive PipelineLabel where
  | tryPush (evt : Option Event)
  | dispatcher (timeout : Bool)
  | consume (queueId : QueueId)
  | dropTake (queueId : QueueId)
  | dropFlush (index : Nat)

namespace Pipeline

/-- `Dispatcher::tryPush`, `dispatcher.cpp:25–31`, of a possibly null pointer. -/
def tryPush (s : Pipeline) (evt : Option Event) : Pipeline :=
  if s.inbound.length ≥ Dispatcher.inboundCapacity then s
  else
    match evt with
    | none => { s with inbound := s.inbound ++ [none] }
    | some event =>
      { s with
        inbound := s.inbound ++ [some ⟨s.nextTicket, event⟩]
        nextTicket := s.nextTicket + 1 }

/-- The inbound `pop` of `dispatchLoop`; a null pointer is discarded. -/
def popInbound (s : Pipeline) : Pipeline :=
  match s.inbound with
  | [] => s
  | none :: inbound => { s with inbound }
  | some item :: inbound => { s with inbound, dispatcher := .route item }

/-- The call of `route` and the start of the retry loop. -/
def routeItem (topicTable : Option TopicTable) (s : Pipeline) (item : Item) : Pipeline :=
  let (event, queueId) :=
    Dispatcher.route topicTable s.bus.realtimeBus.pressure item.event
  { s with dispatcher := .push { item with event } queueId 0 (.first queueId) }

/-- One operation of `event_bus_.push` in the retry loop; `dispatcher.cpp:107–120`. -/
def pushItem (s : Pipeline) (item : Item) (queueId : QueueId) (retryCount : Nat)
    (timeout : Bool) (op : PushOp Item) : Option Pipeline :=
  (s.bus.pushOp queueId item timeout op).map fun (bus, progress) ↦
    { s with
      bus
      dlqPushes := s.dlqPushes ++ op.dlqPushes item
      dispatcher := match progress with
        | .running op' => .push item queueId retryCount op'
        | .returned true => .idle
        | .returned false =>
          if retryCount + 1 < Dispatcher.maxRetries
          then .push item queueId (retryCount + 1) (.first queueId) else .dlq item }

/-- One step of `dispatchLoop` while it is running. -/
def stepDispatcher (topicTable : Option TopicTable) (s : Pipeline) (timeout : Bool) :
    Option Pipeline :=
  match s.dispatcher with
  | .idle => some s.popInbound
  | .route item => some (s.routeItem topicTable item)
  | .push item queueId retryCount op => s.pushItem item queueId retryCount timeout op
  | .dlq item =>
    some { s with
      bus := { s.bus with dlq := s.bus.dlq.push item }
      dlqPushes := s.dlqPushes ++ [item]
      dispatcher := .idle }

/-- A consumer's `pop` that returns an event. -/
def consume (s : Pipeline) (queueId : QueueId) : Option Pipeline :=
  (s.bus.pop queueId).map fun (item, bus) ↦
    { s with bus, popped := Function.update s.popped queueId (s.popped queueId ++ [item]) }

/-- The locked part of a `dropBatchFromQueue` on TRANSACTIONAL or BATCH. -/
def dropTake (s : Pipeline) (queueId : QueueId) : Option Pipeline :=
  match queueId with
  | .realtime => none
  | _ =>
    let (batch, bus) := s.bus.takeBatch queueId
    some { s with bus, droppers := s.droppers ++ [batch] }

/-- The dead letter queue push of a `dropBatchFromQueue` in progress; nothing is pushed
for an empty batch. -/
def dropFlush (s : Pipeline) (index : Nat) : Option Pipeline :=
  s.droppers[index]?.map fun batch ↦
    { s with
      bus := if batch.isEmpty then s.bus else s.bus.flushBatch batch
      droppers := s.droppers.eraseIdx index
      dlqPushes := s.dlqPushes ++ batch }

/-- One step of the pipeline. -/
def step (topicTable : Option TopicTable) (s : Pipeline) : PipelineLabel → Option Pipeline
  | .tryPush evt => some (s.tryPush evt)
  | .dispatcher timeout => s.stepDispatcher topicTable timeout
  | .consume queueId => s.consume queueId
  | .dropTake queueId => s.dropTake queueId
  | .dropFlush index => s.dropFlush index

/-- A new engine. -/
def initial (buffer : Fin realtimeCapacity.val → Item) : Pipeline :=
  ⟨[], .initial buffer, .idle, [], 0, fun _ ↦ [], []⟩

end Pipeline

/-- All runs of the pipeline with a fixed topic table. -/
def pipeline (topicTable : Option TopicTable) (buffer : Fin realtimeCapacity.val → Item) :
    Machine Pipeline PipelineLabel where
  start := Pipeline.initial buffer
  step := Pipeline.step topicTable

/-- Where an accepted event can be. -/
inductive Place where
  | inbound
  | hands
  | bus (queueId : QueueId)
  | popped (queueId : QueueId)
  | dlq
deriving DecidableEq, Repr

/-- All places. -/
def Place.all : List Place :=
  [.inbound, .hands, .bus .realtime, .bus .transactional, .bus .batch, .popped .realtime,
    .popped .transactional, .popped .batch, .dlq]

/-- Every place is listed. -/
theorem Place.mem_all (p : Place) : p ∈ Place.all := by
  cases p with
  | bus queueId => cases queueId <;> decide
  | popped queueId => cases queueId <;> decide
  | _ => decide

/-- The events at a place. -/
def Pipeline.itemsAt (s : Pipeline) : Place → List Item
  | .inbound => s.inbound.filterMap id
  | .hands => s.dispatcher.hands ++ s.droppers.flatten
  | .bus queueId => s.bus.held queueId
  | .popped queueId => s.popped queueId
  | .dlq => s.dlqPushes

/-- The tickets at a place. -/
def Pipeline.ticketsAt (s : Pipeline) (p : Place) : List Nat := (s.itemsAt p).map Item.ticket

/-- How often events of a kind occur in all places together. -/
def Pipeline.countP (s : Pipeline) (p : Item → Bool) : Nat :=
  (s.inbound.filterMap id).countP p + s.dispatcher.hands.countP p + s.droppers.flatten.countP p +
    s.bus.heldCount p +
    ((s.popped .realtime).countP p + (s.popped .transactional).countP p +
      (s.popped .batch).countP p) + s.dlqPushes.countP p

/-- The count over all places of a ticket. -/
theorem Pipeline.custody_eq (s : Pipeline) (k : Nat) :
    custody Place.all s.ticketsAt k = s.countP fun item ↦ item.ticket == k := by
  have hcount : ∀ items : List Item,
      (items.map Item.ticket).count k = items.countP fun item ↦ item.ticket == k := by
    intro items
    rw [List.count_eq_countP, List.countP_map]
    rfl
  simp only [custody, Place.all, Pipeline.ticketsAt, Pipeline.itemsAt, List.map_cons, List.map_nil,
    List.sum_cons, List.sum_nil, hcount, List.countP_append, Pipeline.countP,
    EventBusMulti.heldCount]
  omega

/-- Every accepted event is somewhere exactly once, the overflow path has room for its retry,
and the dead letter queue is what the recorded pushes make it. -/
structure Pipeline.Inv (s : Pipeline) : Prop where
  count : ∀ k, (s.countP fun item ↦ item.ticket == k) = if k < s.nextTicket then 1 else 0
  policy : s.bus.realtimeBus.policy = .dropOld
  room : ∀ item queueId retryCount op, s.dispatcher = .push item queueId retryCount op →
    op.At (s.bus.held .realtime).length
  dlq : s.bus.dlq = .ofHistory s.dlqPushes

namespace Pipeline

variable {s t : Pipeline}

private theorem inv_initial (buffer : Fin realtimeCapacity.val → Item) : (initial buffer).Inv where
  count k := by
    have hring : (SpscRingBuffer.initial realtimeCapacity buffer).contents = [] :=
      (SpscRingBuffer.View.initial buffer).contents_eq
    simp [countP, EventBusMulti.heldCount, EventBusMulti.held, initial, EventBusMulti.initial,
      RealtimeQueue.initial, hring, DispatcherPc.hands, Q.transactional, Q.batch]
  policy := rfl
  room _ _ _ _ hd := by cases hd
  dlq := rfl

private theorem inv_tryPush (h : s.Inv) (evt : Option Event) : (s.tryPush evt).Inv := by
  unfold tryPush
  split
  · exact h
  · cases evt with
    | none =>
      refine ⟨?_, h.policy, h.room, h.dlq⟩
      intro k
      rw [← h.count k]
      simp [countP, List.filterMap_append]
    | some event =>
      refine ⟨?_, h.policy, h.room, h.dlq⟩
      intro k
      have hk := h.count k
      have hnew : ([some ⟨s.nextTicket, event⟩].filterMap id : List Item).countP
          (fun i ↦ i.ticket == k) = if s.nextTicket = k then 1 else 0 := by
        by_cases he : s.nextTicket = k <;> simp [he]
      simp only [countP, List.filterMap_append, List.countP_append, hnew] at hk ⊢
      split at hk <;> split <;> split <;> omega

private theorem inv_popInbound (h : s.Inv) (hd : s.dispatcher = .idle) : s.popInbound.Inv := by
  unfold popInbound
  split
  · exact h
  · next inbound hin =>
    refine ⟨?_, h.policy, h.room, h.dlq⟩
    intro k
    rw [← h.count k]
    simp [countP, hin]
  · next item inbound hin =>
    have hcons : (some item :: inbound).filterMap id = item :: inbound.filterMap id := rfl
    refine ⟨?_, h.policy, fun _ _ _ _ he ↦ (by cases he), h.dlq⟩
    intro k
    rw [← h.count k]
    simp only [countP, hin, hd, hcons, DispatcherPc.hands, List.countP_cons, List.countP_nil]
    omega

private theorem inv_routeItem (topicTable : Option TopicTable) {item : Item} (h : s.Inv)
    (hd : s.dispatcher = .route item) : (s.routeItem topicTable item).Inv := by
  refine ⟨?_, h.policy, ?_, h.dlq⟩
  · intro k
    refine Eq.trans ?_ (h.count k)
    have hhands : ∀ (event : Event) (q : QueueId), (PushOp.first q).hands { item with event } =
        [{ item with event }] := by
      intro event q
      cases q <;> rfl
    simp only [countP, hd, routeItem, DispatcherPc.hands, hhands]
    rfl
  · intro item' queueId retryCount op he
    cases he
    exact PushOp.first_at _ _

private theorem inv_pushItem {item : Item} {queueId : QueueId} {retryCount : Nat}
    {timeout : Bool} {op : PushOp Item} (h : s.Inv)
    (hd : s.dispatcher = .push item queueId retryCount op)
    (ht : s.pushItem item queueId retryCount timeout op = some t) : t.Inv := by
  have hat := h.room item queueId retryCount op hd
  have hop : op ≠ .dlqIncoming := by
    rintro rfl
    exact hat
  obtain ⟨⟨bus, progress⟩, hbus, rfl⟩ := Option.map_eq_some_iff.mp ht
  obtain ⟨hpolicy, hdlq⟩ := EventBusMulti.pushOp_frame hbus
  refine ⟨?_, hpolicy.trans h.policy, ?_, ?_⟩
  · intro k
    have hk := h.count k
    have hcons := EventBusMulti.pushOp_conserves hbus hop fun item ↦ item.ticket == k
    have hafter : (match progress with
        | .running op' => DispatcherPc.push item queueId retryCount op'
        | .returned true => .idle
        | .returned false =>
          if retryCount + 1 < Dispatcher.maxRetries
          then .push item queueId (retryCount + 1) (.first queueId) else .dlq item).hands =
        PushOp.handsAfter item progress := by
      cases progress with
      | running op' => rfl
      | returned ok =>
        cases ok with
        | true => rfl
        | false =>
          change (if _ then _ else _ : DispatcherPc).hands = [item]
          split
          · cases queueId <;> rfl
          · rfl
    simp only [countP, hd, DispatcherPc.hands] at hk
    simp only [countP, hafter, List.countP_append]
    omega
  · intro item' queueId' retryCount' op' he
    cases progress with
    | running op'' =>
      cases he
      exact EventBusMulti.pushOp_at hbus h.policy hat
    | returned ok =>
      cases ok with
      | true => cases he
      | false =>
        change (if _ then _ else _ : DispatcherPc) = _ at he
        split at he
        · cases he
          exact PushOp.first_at _ _
        · cases he
  · change bus.dlq = DeadLetterQueue.ofHistory (s.dlqPushes ++ op.dlqPushes item)
    rw [hdlq, h.dlq, DeadLetterQueue.ofHistory, DeadLetterQueue.ofHistory, List.foldl_append]

private theorem inv_stepDispatcher {topicTable : Option TopicTable} {timeout : Bool} (h : s.Inv)
    (ht : s.stepDispatcher topicTable timeout = some t) : t.Inv := by
  unfold stepDispatcher at ht
  split at ht
  · next hd =>
    cases ht
    exact inv_popInbound h hd
  · next item hd =>
    cases ht
    exact inv_routeItem topicTable h hd
  · next item queueId retryCount op hd => exact inv_pushItem h hd ht
  · next item hd =>
    cases ht
    refine ⟨?_, h.policy, fun _ _ _ _ he ↦ (by cases he), ?_⟩
    · intro k
      rw [← h.count k]
      simp only [countP, hd, DispatcherPc.hands, EventBusMulti.heldCount, EventBusMulti.held,
        List.countP_append, List.countP_nil]
      omega
    · rw [DeadLetterQueue.ofHistory_concat, ← h.dlq]

private theorem popped_update (popped : QueueId → List Item) (q : QueueId) (item : Item)
    (p : Item → Bool) :
    (Function.update popped q (popped q ++ [item]) .realtime).countP p +
      (Function.update popped q (popped q ++ [item]) .transactional).countP p +
      (Function.update popped q (popped q ++ [item]) .batch).countP p =
    (popped .realtime).countP p + (popped .transactional).countP p + (popped .batch).countP p +
      [item].countP p := by
  cases q <;>
    simp only [Function.update_self, Function.update_of_ne, ne_eq, reduceCtorEq,
      not_false_eq_true, List.countP_append] <;> omega

private theorem inv_consume {q : QueueId} (h : s.Inv) (ht : s.consume q = some t) : t.Inv := by
  obtain ⟨⟨item, bus⟩, hpop, rfl⟩ := Option.map_eq_some_iff.mp ht
  obtain ⟨hheld, hothers⟩ := EventBusMulti.pop_held hpop
  obtain ⟨hpolicy, hdlq, -⟩ := EventBusMulti.pop_frame hpop
  refine ⟨?_, hpolicy.trans h.policy, ?_, hdlq.trans h.dlq⟩
  · intro k
    have hk := h.count k
    have hbus : bus.heldCount (fun i ↦ i.ticket == k) + [item].countP (fun i ↦ i.ticket == k) =
        s.bus.heldCount fun i ↦ i.ticket == k := by
      unfold EventBusMulti.heldCount
      cases q with
      | realtime =>
        rw [hothers .transactional nofun, hothers .batch nofun, hheld, List.countP_cons,
          List.countP_cons, List.countP_nil]
        omega
      | transactional =>
        rw [hothers .realtime nofun, hothers .batch nofun, hheld, List.countP_cons,
          List.countP_cons, List.countP_nil]
        omega
      | batch =>
        rw [hothers .realtime nofun, hothers .transactional nofun, hheld, List.countP_cons,
          List.countP_cons, List.countP_nil]
        omega
    have hpopped := popped_update s.popped q item fun i ↦ i.ticket == k
    simp only [countP] at hk ⊢
    omega
  · intro item' queueId retryCount op hd
    apply (h.room item' queueId retryCount op hd).mono
    by_cases hq : q = .realtime
    · subst hq
      rw [hheld, List.length_cons]
      exact Nat.le_succ _
    · exact Nat.le_of_eq (congrArg List.length (hothers .realtime (Ne.symm hq)))

private theorem inv_dropTake {q : QueueId} (h : s.Inv) (ht : s.dropTake q = some t) : t.Inv := by
  have hcount : ∀ k, s.bus.heldCount (fun i ↦ i.ticket == k) =
      (s.bus.takeBatch q).2.heldCount (fun i ↦ i.ticket == k) +
        (s.bus.takeBatch q).1.countP fun i ↦ i.ticket == k :=
    fun k ↦ (s.bus.takeBatch_heldCount q _).symm
  have hinv : Inv { s with
      bus := (s.bus.takeBatch q).2, droppers := s.droppers ++ [(s.bus.takeBatch q).1] } := by
    refine ⟨?_, ?_, ?_, ?_⟩
    · intro k
      have hk := h.count k
      have hq := hcount k
      simp only [countP, List.flatten_append, List.flatten_singleton, List.countP_append] at hk ⊢
      omega
    · cases q <;> exact h.policy
    · cases q <;> exact h.room
    · cases q <;> exact h.dlq
  cases q with
  | realtime => cases ht
  | transactional =>
    cases ht
    exact hinv
  | batch =>
    cases ht
    exact hinv

/-- Taking one batch out of several takes its events out. -/
theorem countP_flatten_eraseIdx (p : Item → Bool) (batches : List (List Item)) (i : Nat)
    {batch : List Item} (h : batches[i]? = some batch) :
    (batches.eraseIdx i).flatten.countP p + batch.countP p = batches.flatten.countP p := by
  induction batches generalizing i with
  | nil => cases h
  | cons b batches ih =>
    cases i with
    | zero =>
      cases h
      rw [List.eraseIdx_cons_zero, List.flatten_cons, List.countP_append]
      omega
    | succ i =>
      have hi := ih i h
      rw [List.eraseIdx_cons_succ, List.flatten_cons, List.flatten_cons, List.countP_append,
        List.countP_append]
      omega

private theorem inv_dropFlush {index : Nat} (h : s.Inv) (ht : s.dropFlush index = some t) :
    t.Inv := by
  obtain ⟨batch, hbatch, rfl⟩ := Option.map_eq_some_iff.mp ht
  refine ⟨?_, ?_, ?_, ?_⟩
  · intro k
    have hk := h.count k
    have hflat := countP_flatten_eraseIdx (fun i ↦ i.ticket == k) s.droppers index hbatch
    have hbus : (if batch.isEmpty then s.bus else s.bus.flushBatch batch).heldCount
        (fun i ↦ i.ticket == k) = s.bus.heldCount fun i ↦ i.ticket == k := by
      split <;> rfl
    simp only [countP, hbus, List.countP_append] at hk ⊢
    omega
  · split <;> exact h.policy
  · split <;> exact h.room
  · change (if batch.isEmpty then s.bus else s.bus.flushBatch batch).dlq = _
    rw [DeadLetterQueue.ofHistory_append, ← h.dlq]
    split
    · next hempty =>
      rw [List.isEmpty_iff.mp hempty]
      rfl
    · rfl

/-- Every step keeps every accepted event in exactly one place. -/
theorem Inv.step {topicTable : Option TopicTable} {l : PipelineLabel} (h : s.Inv)
    (ht : s.step topicTable l = some t) : t.Inv := by
  cases l with
  | tryPush evt =>
    cases ht
    exact inv_tryPush h evt
  | dispatcher timeout => exact inv_stepDispatcher h ht
  | consume queueId => exact inv_consume h ht
  | dropTake queueId => exact inv_dropTake h ht
  | dropFlush index => exact inv_dropFlush h ht

/-- The invariant holds in every reachable state. -/
theorem Inv.of_reachable {topicTable : Option TopicTable}
    {buffer : Fin realtimeCapacity.val → Item} (h : (pipeline topicTable buffer).Reachable s) :
    s.Inv :=
  Machine.Reachable.invariant (inv_initial buffer) (fun _ _ _ hi hs ↦ hi.step hs) h

/-- A step of the dispatcher leaves the consumers' histories, the drops in progress and every
queue but the one it works on alone. -/
theorem stepDispatcher_frame {topicTable : Option TopicTable} {timeout : Bool}
    (ht : s.stepDispatcher topicTable timeout = some t) :
    t.popped = s.popped ∧ t.droppers = s.droppers ∧
      ∀ q, s.dispatcher.target ≠ some q → t.bus.held q = s.bus.held q := by
  unfold stepDispatcher at ht
  split at ht
  · cases ht
    unfold popInbound
    split <;> exact ⟨rfl, rfl, fun _ _ ↦ rfl⟩
  · cases ht
    exact ⟨rfl, rfl, fun _ _ ↦ rfl⟩
  · next item queueId retryCount op hd =>
    obtain ⟨⟨bus, progress⟩, hbus, rfl⟩ := Option.map_eq_some_iff.mp ht
    refine ⟨rfl, rfl, ?_⟩
    intro q hq
    apply EventBusMulti.pushOp_held_of_ne hbus
    rintro rfl
    exact hq (by rw [hd]; rfl)
  · cases ht
    refine ⟨rfl, rfl, ?_⟩
    intro q _
    cases q <;> rfl

end Pipeline

/-- No event is lost or duplicated between ingest and processors. In every reachable state
every non-null event accepted by `tryPush` is in exactly one place and occurs there exactly
once; in particular `push` never gives up the incoming REALTIME event. -/
theorem accepted_in_exactly_one_place (topicTable : Option TopicTable)
    (buffer : Fin realtimeCapacity.val → Item) (s : Pipeline)
    (h : (pipeline topicTable buffer).Reachable s) :
    (∀ k < s.nextTicket, ∃ p, (s.ticketsAt p).count k = 1 ∧
      ∀ q, q ≠ p → (s.ticketsAt q).count k = 0) ∧
    ∀ item queueId retryCount, s.dispatcher ≠ .push item queueId retryCount .dlqIncoming := by
  have hi := Pipeline.Inv.of_reachable h
  constructor
  · intro k hk
    have hone : custody Place.all s.ticketsAt k = 1 := by
      rw [s.custody_eq, hi.count, if_pos hk]
    obtain ⟨p, -, hp, hothers⟩ := exists_place_of_custody (by decide) hone
    exact ⟨p, hp, fun q hq ↦ hothers q q.mem_all hq⟩
  · intro item queueId retryCount hd
    exact hi.room item queueId retryCount .dlqIncoming hd

/-- A CRITICAL event passes the inbound queue, the dispatcher and the ring. -/
theorem accepted_in_exactly_one_place_critical : ∃ s : Pipeline,
    (pipeline none fun _ ↦ ⟨0, ⟨⟨.tcp, .batch, 0, 0, 0, 0, 0⟩, [], [], [], 0⟩⟩).Reachable s ∧
    s.nextTicket = 1 ∧ s.ticketsAt (.popped .realtime) = [0] ∧
    ∃ p, (s.ticketsAt p).count 0 = 1 ∧ ∀ q, q ≠ p → (s.ticketsAt q).count 0 = 0 := by
  let m := pipeline none fun _ ↦ ⟨0, ⟨⟨.tcp, .batch, 0, 0, 0, 0, 0⟩, [], [], [], 0⟩⟩
  have hrun : (m.run m.start
      [.tryPush (some ⟨⟨.tcp, .critical, 1, 0, 0, 0, 0⟩, [], [], [], 0⟩), .dispatcher false,
        .dispatcher false, .dispatcher false, .dispatcher false, .consume .realtime]).map
      (fun s ↦ (s.nextTicket, s.ticketsAt (.popped .realtime))) = some (1, [0]) := by
    decide +kernel
  obtain ⟨s, hrun, hs⟩ := Option.map_eq_some_iff.mp hrun
  simp only [Prod.mk.injEq] at hs
  have hreach := Machine.Reachable.run .start hrun
  exact ⟨s, hreach, hs.1, hs.2,
    (accepted_in_exactly_one_place _ _ s hreach).1 0 (by rw [hs.1]; exact Nat.one_pos)⟩

end EventStreamCore.Events
