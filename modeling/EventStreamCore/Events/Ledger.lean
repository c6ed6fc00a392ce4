import EventStreamCore.Events.EndToEnd
import EventStreamCore.Events.Pipeline
import EventStreamCore.Events.DropWindow
import EventStreamCore.Events.Routing

/-!
# A ledger of the accepted events

The runs of the pipeline together with the events `tryPush` accepted,
`src/core/events/dispatcher.cpp:25–31`, in their order. Until it is popped, the event of a ticket
is the accepted one, or what `route`, `dispatcher.cpp:41–82`, has made of it.
-/

namespace EventStreamCore.Events
open EventStreamCore.Lib EventStreamCore.Queues

/-- A pipeline and the events accepted so far, the k-th of them under ticket k. -/
structure Ledger where
  pipe : Pipeline
  accepted : List Event

namespace Ledger

/-- The non-null event a `tryPush` with room accepts. -/
def accepts (s : Ledger) (evt : Option Event) : List Event :=
  if s.pipe.inbound.length ≥ Dispatcher.inboundCapacity then [] else evt.toList

/-- One step of the pipeline. -/
def step (topicTable : Option TopicTable) (s : Ledger) : PipelineLabel → Option Ledger
  | .tryPush evt => some ⟨s.pipe.tryPush evt, s.accepted ++ s.accepts evt⟩
  | l => (s.pipe.step topicTable l).map fun pipe ↦ { s with pipe }

/-- What `route` makes of the accepted event of its ticket, at some pressure level, is this
event for this queue. -/
def Routed (topicTable : Option TopicTable) (accepted : List Event) (item : Item)
    (queueId : QueueId) : Prop :=
  ∃ evt, accepted[item.ticket]? = some evt ∧
    ∃ rtPressure, Dispatcher.route topicTable rtPressure evt = (item.event, queueId)

end Ledger

/-- All runs of the pipeline, with the ledger. -/
def ledger (topicTable : Option TopicTable) (buffer : Fin realtimeCapacity.val → Item) :
    Machine Ledger PipelineLabel where
  start := ⟨.initial buffer, []⟩
  step := Ledger.step topicTable

/-- What a step of the ledger is. -/
theorem Ledger.step_cases {topicTable : Option TopicTable} {s t : Ledger}
    {l : PipelineLabel} (h : s.step topicTable l = some t) :
    (∃ evt, l = .tryPush evt ∧
      t = ⟨s.pipe.tryPush evt, s.accepted ++ s.accepts evt⟩) ∨
    (∀ evt, l ≠ .tryPush evt) ∧ s.pipe.step topicTable l = some t.pipe ∧
      t.accepted = s.accepted := by
  cases l with
  | tryPush evt =>
    cases h
    exact .inl ⟨evt, rfl, rfl⟩
  | _ =>
    obtain ⟨pipe, hpipe, rfl⟩ := Option.map_eq_some_iff.mp h
    exact .inr ⟨by simp, hpipe, rfl⟩

/-- The ledger only looks on. -/
def ledgerToPipeline (topicTable : Option TopicTable)
    (buffer : Fin realtimeCapacity.val → Item) :
    Machine.Simulation (ledger topicTable buffer) (pipeline topicTable buffer) where
  abs := Ledger.pipe
  start := rfl
  step s l t h := by
    obtain ⟨evt, rfl, rfl⟩ | ⟨-, hpipe, -⟩ := Ledger.step_cases h
    · exact .inr ⟨.tryPush evt, rfl⟩
    · exact .inr ⟨l, hpipe⟩

/-- No step of the pipeline takes back what a consumer has popped. -/
theorem Pipeline.popped_step {topicTable : Option TopicTable} {s t : Pipeline} {l : PipelineLabel}
    (ht : s.step topicTable l = some t) (q : QueueId) : s.popped q <+: t.popped q := by
  cases l with
  | tryPush evt =>
    cases ht
    unfold tryPush
    split
    · exact List.prefix_rfl
    · split <;> exact List.prefix_rfl
  | dispatcher timeout =>
    rw [(stepDispatcher_frame ht).1]
  | consume queueId =>
    obtain ⟨⟨item, bus⟩, -, rfl⟩ := Option.map_eq_some_iff.mp ht
    by_cases hq : q = queueId
    · subst hq
      simp
    · simp [hq]
  | dropTake queueId =>
    change s.dropTake queueId = some t at ht
    unfold dropTake at ht
    split at ht <;> cases ht
    exact List.prefix_rfl
  | dropFlush index =>
    obtain ⟨batch, -, rfl⟩ := Option.map_eq_some_iff.mp ht
    exact List.prefix_rfl

/-- No ticket is popped twice. -/
theorem Pipeline.Inv.popped_unique {s : Pipeline} (h : s.Inv) {q q' : QueueId} {i j : Nat}
    {x y : Item} (hx : (s.popped q)[i]? = some x) (hy : (s.popped q')[j]? = some y)
    (hticket : x.ticket = y.ticket) : q = q' ∧ i = j := by
  have hxs : (s.ticketsAt (.popped q))[i]? = some x.ticket := by
    change ((s.popped q).map Item.ticket)[i]? = _
    rw [List.getElem?_map, hx, Option.map_some]
  have hys : (s.ticketsAt (.popped q'))[j]? = some x.ticket := by
    change ((s.popped q').map Item.ticket)[j]? = _
    rw [List.getElem?_map, hy, Option.map_some, hticket]
  have hpos : ∀ p (n : Nat), (s.ticketsAt p)[n]? = some x.ticket →
      (s.ticketsAt p).count x.ticket ≠ 0 :=
    fun p n hn ↦ Nat.ne_of_gt (List.count_pos_iff.mpr (List.mem_of_getElem? hn))
  have hcustody := h.count x.ticket
  rw [← custody_eq] at hcustody
  split at hcustody
  · obtain ⟨p, -, hone, hothers⟩ := exists_place_of_custody (by decide) hcustody
    have hplace : ∀ p' (n : Nat), (s.ticketsAt p')[n]? = some x.ticket → p' = p := by
      intro p' n hn
      by_contra hne
      exact hpos p' n hn (hothers p' p'.mem_all hne)
    have hq := hplace _ i hxs
    obtain rfl : q = q' := Place.popped.inj (hq.trans (hplace _ j hys).symm)
    rw [← hq] at hone
    exact ⟨rfl, position_unique (Nat.le_of_eq hone) hxs hys⟩
  · exact absurd (count_eq_zero_of_custody hcustody (Place.mem_all _)) (hpos _ i hxs)

/-- Every run of the pipeline is written into the ledger. -/
theorem exists_ledger {topicTable : Option TopicTable} {buffer : Fin realtimeCapacity.val → Item}
    {s : Pipeline} (h : (pipeline topicTable buffer).Reachable s) :
    ∃ accepted, (ledger topicTable buffer).Reachable ⟨s, accepted⟩ := by
  induction h with
  | start => exact ⟨[], .start⟩
  | @next s t l _ _ hs ih =>
    obtain ⟨accepted, hreach⟩ := ih
    cases l with
    | tryPush evt =>
      cases hs
      exact ⟨_, hreach.step (l := .tryPush evt) rfl⟩
    | dispatcher timeout =>
      refine ⟨accepted, hreach.step (l := .dispatcher timeout) ?_⟩
      exact Option.map_eq_some_iff.mpr ⟨t, hs, rfl⟩
    | consume queueId =>
      refine ⟨accepted, hreach.step (l := .consume queueId) ?_⟩
      exact Option.map_eq_some_iff.mpr ⟨t, hs, rfl⟩
    | dropTake queueId =>
      refine ⟨accepted, hreach.step (l := .dropTake queueId) ?_⟩
      exact Option.map_eq_some_iff.mpr ⟨t, hs, rfl⟩
    | dropFlush index =>
      refine ⟨accepted, hreach.step (l := .dropFlush index) ?_⟩
      exact Option.map_eq_some_iff.mpr ⟨t, hs, rfl⟩

namespace EventBusMulti

universe u

variable {α : Type u} {bus bus' : EventBusMulti α}

/-- After an operation of `push` a queue holds what it held, and perhaps the event pushed if the
operation works on it. -/
theorem mem_held_of_pushOp {q q' : QueueId} {evt x : α} {timeout : Bool} {op : PushOp α}
    {progress : Progress (PushOp α) Bool}
    (h : bus.pushOp q evt timeout op = some (bus', progress)) (hx : x ∈ bus'.held q') :
    x ∈ bus.held q' ∨ x = evt ∧ q' = op.queue q := by
  by_cases hq : q' = op.queue q
  · have hmem := (pushOp_held_sublist h q').subset (List.mem_append_left _ hx)
    rcases List.mem_append.mp hmem with hold | hnew
    · exact .inl hold
    · exact .inr ⟨List.mem_singleton.mp hnew, hq⟩
  · rw [pushOp_held_of_ne h hq] at hx
    exact .inl hx

/-- The event the overflow path gives up was in the ring. -/
theorem mem_realtime_of_pushOp {q : QueueId} {evt old : α} {timeout : Bool} {op : PushOp α}
    (h : bus.pushOp q evt timeout op = some (bus', .running (.dlqOld old))) :
    old ∈ bus.held .realtime := by
  cases op with
  | ringPop =>
    rw [pushOp] at h
    rcases bus.realtimeBus.ringBuffer.pop_contents with ⟨-, he⟩ | ⟨item, hitem, hcontents⟩
    · rw [he] at h
      cases h
    · split at h
      · next ring x he =>
        cases h
        rw [he] at hitem hcontents
        cases hitem
        change old ∈ bus.realtimeBus.ringBuffer.contents
        rw [hcontents]
        exact List.mem_cons_self
      · cases h
  | ringPush =>
    rw [pushOp] at h
    split at h
    · cases h
    · split at h <;> cases h
  | ringRetry =>
    rw [pushOp] at h
    split at h <;> cases h
  | lockedPush =>
    rw [pushOp] at h
    split at h <;> cases h
  | _ => cases h

/-- An operation of `push` that goes on stays with its queue. -/
theorem queue_of_pushOp {q : QueueId} {evt : α} {timeout : Bool} {op op' : PushOp α}
    (h : bus.pushOp q evt timeout op = some (bus', .running op')) :
    op'.queue q = op.queue q := by
  cases op with
  | ringPush =>
    rw [pushOp] at h
    split at h
    · cases h
    · split at h <;> cases h <;> rfl
  | ringPop =>
    rw [pushOp] at h
    split at h <;> cases h <;> rfl
  | ringRetry =>
    rw [pushOp] at h
    split at h
    · cases h
    · cases h
      rfl
  | lockedPush =>
    rw [pushOp] at h
    split at h <;> cases h
  | dlqIncoming => cases h
  | _ =>
    cases h
    rfl

end EventBusMulti

/-- The first operation of `push` works on the queue asked for. -/
theorem PushOp.queue_first (q : QueueId) : (PushOp.first q : PushOp Item).queue q = q := by
  cases q <;> rfl

/-- `push` starts with nothing but its event in its hands. -/
theorem PushOp.first_ne_dlqOld (q : QueueId) (old : Item) : PushOp.first q ≠ .dlqOld old := by
  cases q <;> simp [PushOp.first]

/-- What the dispatcher has in its hands belongs to the ledger. -/
def DispatcherPc.Traced (topicTable : Option TopicTable) (accepted : List Event) :
    DispatcherPc → Prop
  | .idle => True
  | .route item => accepted[item.ticket]? = some item.event
  | .push item queueId _ op => op.queue queueId = queueId ∧
    Ledger.Routed topicTable accepted item queueId ∧
      ∀ old, op = .dlqOld old → Ledger.Routed topicTable accepted old .realtime
  | .dlq item => ∃ queueId, Ledger.Routed topicTable accepted item queueId

/-- What is in each place belongs to the ledger. -/
structure Ledger.Traced (topicTable : Option TopicTable) (s : Ledger) : Prop where
  count : s.accepted.length = s.pipe.nextTicket
  inbound : ∀ item, some item ∈ s.pipe.inbound → s.accepted[item.ticket]? = some item.event
  hands : s.pipe.dispatcher.Traced topicTable s.accepted
  held : ∀ q, ∀ item ∈ s.pipe.bus.held q, Routed topicTable s.accepted item q
  popped : ∀ q, ∀ item ∈ s.pipe.popped q, Routed topicTable s.accepted item q
  droppers : ∀ item ∈ s.pipe.droppers.flatten, ∃ q, Routed topicTable s.accepted item q
  dlq : ∀ item ∈ s.pipe.dlqPushes, ∃ q, Routed topicTable s.accepted item q

namespace Ledger

variable {topicTable : Option TopicTable} {s t : Ledger}

/-- The ledger only grows. -/
private theorem getElem?_append_of {accepted : List Event} {k : Nat} {evt : Event}
    (h : accepted[k]? = some evt) (more : List Event) : (accepted ++ more)[k]? = some evt := by
  rw [List.getElem?_append_left (List.getElem?_eq_some_iff.mp h).1]
  exact h

private theorem Routed.append {accepted : List Event} {item : Item} {q : QueueId}
    (h : Routed topicTable accepted item q) (more : List Event) :
    Routed topicTable (accepted ++ more) item q := by
  obtain ⟨evt, hevt, hroute⟩ := h
  exact ⟨evt, getElem?_append_of hevt more, hroute⟩

private theorem traced_append {accepted : List Event} {pc : DispatcherPc}
    (h : pc.Traced topicTable accepted) (more : List Event) :
    pc.Traced topicTable (accepted ++ more) := by
  cases pc with
  | idle => trivial
  | route item => exact getElem?_append_of h more
  | push item queueId retryCount op =>
    exact ⟨h.1, h.2.1.append more, fun old ho ↦ (h.2.2 old ho).append more⟩
  | dlq item =>
    obtain ⟨q, hq⟩ := h
    exact ⟨q, hq.append more⟩

private theorem traced_tryPush (h : s.Traced topicTable) (evt : Option Event) :
    Traced topicTable ⟨s.pipe.tryPush evt, s.accepted ++ s.accepts evt⟩ := by
  have hrest : ∀ more, ∀ item, some item ∈ s.pipe.inbound →
      (s.accepted ++ more)[item.ticket]? = some item.event :=
    fun more item hitem ↦ getElem?_append_of (h.inbound item hitem) more
  have hroutes : ∀ more : List Event, (∀ q, ∀ item ∈ s.pipe.bus.held q,
        Routed topicTable (s.accepted ++ more) item q) ∧
      (∀ q, ∀ item ∈ s.pipe.popped q, Routed topicTable (s.accepted ++ more) item q) ∧
      (∀ item ∈ s.pipe.droppers.flatten, ∃ q, Routed topicTable (s.accepted ++ more) item q) ∧
      ∀ item ∈ s.pipe.dlqPushes, ∃ q, Routed topicTable (s.accepted ++ more) item q := by
    intro more
    refine ⟨?_, ?_, ?_, ?_⟩
    · exact fun q item hitem ↦ (h.held q item hitem).append more
    · exact fun q item hitem ↦ (h.popped q item hitem).append more
    · intro item hitem
      obtain ⟨q, hq⟩ := h.droppers item hitem
      exact ⟨q, hq.append more⟩
    · intro item hitem
      obtain ⟨q, hq⟩ := h.dlq item hitem
      exact ⟨q, hq.append more⟩
  unfold Pipeline.tryPush accepts
  split
  · rw [List.append_nil]
    exact h
  · cases evt with
    | none =>
      rw [Option.toList_none, List.append_nil]
      refine ⟨h.count, ?_, h.hands, h.held, h.popped, h.droppers, h.dlq⟩
      intro item hitem
      exact h.inbound item (by simpa using hitem)
    | some event =>
      obtain ⟨hheld, hpopped, hdroppers, hdlq⟩ := hroutes [event]
      refine ⟨?_, ?_, traced_append h.hands _, hheld, hpopped, hdroppers, hdlq⟩
      · rw [Option.toList_some, List.length_append, h.count]
        rfl
      · intro item hitem
        rcases List.mem_append.mp hitem with hold | hnew
        · exact hrest _ item hold
        · obtain rfl := Option.some.inj (List.mem_singleton.mp hnew)
          rw [Option.toList_some, ← h.count, List.getElem?_concat_length]

private theorem traced_popInbound (h : s.Traced topicTable) :
    Traced topicTable { s with pipe := s.pipe.popInbound } := by
  unfold Pipeline.popInbound
  split
  · exact h
  · next inbound hin =>
    refine ⟨h.count, ?_, ?_, h.held, h.popped, h.droppers, h.dlq⟩
    · exact fun item hitem ↦ h.inbound item (by rw [hin]; exact List.mem_cons_of_mem _ hitem)
    · exact h.hands
  · next item inbound hin =>
    refine ⟨h.count, ?_, ?_, h.held, h.popped, h.droppers, h.dlq⟩
    · exact fun item hitem ↦ h.inbound item (by rw [hin]; exact List.mem_cons_of_mem _ hitem)
    · exact h.inbound item (by rw [hin]; exact List.mem_cons_self)

private theorem traced_routeItem {item : Item} (h : s.Traced topicTable)
    (hd : s.pipe.dispatcher = .route item) :
    Traced topicTable { s with pipe := s.pipe.routeItem topicTable item } := by
  have hitem := h.hands
  rw [hd] at hitem
  refine ⟨h.count, h.inbound, ?_, h.held, h.popped, h.droppers, h.dlq⟩
  refine ⟨PushOp.queue_first _, ⟨item.event, hitem, s.pipe.bus.realtimeBus.pressure, rfl⟩, ?_⟩
  intro old hold
  exact absurd hold (PushOp.first_ne_dlqOld _ old)

private theorem traced_pushItem {item : Item} {queueId : QueueId} {retryCount : Nat}
    {timeout : Bool} {op : PushOp Item} {pipe : Pipeline} (h : s.Traced topicTable)
    (hinv : s.pipe.Inv) (hd : s.pipe.dispatcher = .push item queueId retryCount op)
    (ht : s.pipe.pushItem item queueId retryCount timeout op = some pipe) :
    Traced topicTable { s with pipe } := by
  obtain ⟨⟨bus, progress⟩, hbus, rfl⟩ := Option.map_eq_some_iff.mp ht
  have hhands := h.hands
  rw [hd] at hhands
  obtain ⟨hqueue, hitem, hold⟩ := hhands
  refine ⟨h.count, h.inbound, ?_, ?_, h.popped, h.droppers, ?_⟩
  · cases progress with
    | running op' =>
      refine ⟨(EventBusMulti.queue_of_pushOp hbus).trans hqueue, hitem, ?_⟩
      rintro old rfl
      exact h.held .realtime old (EventBusMulti.mem_realtime_of_pushOp hbus)
    | returned result =>
      cases result with
      | true => trivial
      | false =>
        change (if _ then _ else _ : DispatcherPc).Traced topicTable s.accepted
        split
        · refine ⟨PushOp.queue_first _, hitem, ?_⟩
          intro old hfirst
          exact absurd hfirst (PushOp.first_ne_dlqOld _ old)
        · exact ⟨queueId, hitem⟩
  · intro q x hx
    rcases EventBusMulti.mem_held_of_pushOp hbus hx with hx | ⟨rfl, rfl⟩
    · exact h.held q x hx
    · rw [hqueue]
      exact hitem
  · intro x hx
    rcases List.mem_append.mp hx with hx | hx
    · exact h.dlq x hx
    · cases op with
      | dlqOld old =>
        obtain rfl := List.mem_singleton.mp hx
        exact ⟨.realtime, hold x rfl⟩
      | dlqIncoming => exact absurd (hinv.room item queueId retryCount .dlqIncoming hd) id
      | _ => cases hx

private theorem traced_stepDispatcher {timeout : Bool} {pipe : Pipeline}
    (h : s.Traced topicTable) (hinv : s.pipe.Inv)
    (ht : s.pipe.stepDispatcher topicTable timeout = some pipe) :
    Traced topicTable { s with pipe } := by
  unfold Pipeline.stepDispatcher at ht
  split at ht
  · cases ht
    exact traced_popInbound h
  · next item hd =>
    cases ht
    exact traced_routeItem h hd
  · next item queueId retryCount op hd => exact traced_pushItem h hinv hd ht
  · next item hd =>
    cases ht
    have hhands := h.hands
    rw [hd] at hhands
    refine ⟨h.count, h.inbound, trivial, ?_, h.popped, h.droppers, ?_⟩
    · intro q
      cases q
      · exact h.held .realtime
      · exact h.held .transactional
      · exact h.held .batch
    · intro x hx
      rcases List.mem_append.mp hx with hx | hx
      · exact h.dlq x hx
      · obtain rfl := List.mem_singleton.mp hx
        exact hhands

private theorem traced_consume {q : QueueId} {pipe : Pipeline} (h : s.Traced topicTable)
    (ht : s.pipe.consume q = some pipe) : Traced topicTable { s with pipe } := by
  obtain ⟨⟨item, bus⟩, hpop, rfl⟩ := Option.map_eq_some_iff.mp ht
  obtain ⟨hheld, hothers⟩ := EventBusMulti.pop_held hpop
  refine ⟨h.count, h.inbound, h.hands, ?_, ?_, h.droppers, h.dlq⟩
  · intro q' x hx
    by_cases hq : q' = q
    · subst hq
      exact h.held q' x (by rw [hheld]; exact List.mem_cons_of_mem _ hx)
    · exact h.held q' x (by rw [← hothers q' hq]; exact hx)
  · intro q' x hx
    by_cases hq : q' = q
    · subst hq
      change x ∈ Function.update s.pipe.popped q' (s.pipe.popped q' ++ [item]) q' at hx
      rw [Function.update_self] at hx
      rcases List.mem_append.mp hx with hx | hx
      · exact h.popped q' x hx
      · obtain rfl := List.mem_singleton.mp hx
        exact h.held q' x (by rw [hheld]; exact List.mem_cons_self)
    · change x ∈ Function.update s.pipe.popped q (s.pipe.popped q ++ [item]) q' at hx
      rw [Function.update_of_ne hq] at hx
      exact h.popped q' x hx

private theorem traced_dropTake {q : QueueId} {pipe : Pipeline} (h : s.Traced topicTable)
    (ht : s.pipe.dropTake q = some pipe) : Traced topicTable { s with pipe } := by
  have htaken : ∀ q, q ≠ .realtime →
      (∀ q', ∀ item ∈ (s.pipe.bus.takeBatch q).2.held q', item ∈ s.pipe.bus.held q') ∧
        ∀ item ∈ (s.pipe.bus.takeBatch q).1, item ∈ s.pipe.bus.held q := by
    intro q hq
    cases q with
    | realtime => exact absurd rfl hq
    | transactional =>
      refine ⟨?_, fun item hitem ↦ List.mem_of_mem_take hitem⟩
      intro q' item hitem
      cases q' with
      | transactional => exact List.mem_of_mem_drop hitem
      | _ => exact hitem
    | batch =>
      refine ⟨?_, fun item hitem ↦ List.mem_of_mem_take hitem⟩
      intro q' item hitem
      cases q' with
      | batch => exact List.mem_of_mem_drop hitem
      | _ => exact hitem
  have hq : q ≠ .realtime := by
    rintro rfl
    cases ht
  obtain ⟨hheld, hbatch⟩ := htaken q hq
  have hpipe : pipe = { s.pipe with
      bus := (s.pipe.bus.takeBatch q).2
      droppers := s.pipe.droppers ++ [(s.pipe.bus.takeBatch q).1] } := by
    cases q with
    | realtime => exact absurd rfl hq
    | _ =>
      cases ht
      rfl
  subst hpipe
  refine ⟨h.count, h.inbound, h.hands, ?_, h.popped, ?_, h.dlq⟩
  · exact fun q' item hitem ↦ h.held q' item (hheld q' item hitem)
  · intro item hitem
    rw [List.flatten_append, List.flatten_singleton] at hitem
    rcases List.mem_append.mp hitem with hitem | hitem
    · exact h.droppers item hitem
    · exact ⟨q, h.held q item (hbatch item hitem)⟩

private theorem traced_dropFlush {index : Nat} {pipe : Pipeline} (h : s.Traced topicTable)
    (ht : s.pipe.dropFlush index = some pipe) : Traced topicTable { s with pipe } := by
  obtain ⟨batch, hbatch, rfl⟩ := Option.map_eq_some_iff.mp ht
  have hheld : ∀ q, (if batch.isEmpty then s.pipe.bus else s.pipe.bus.flushBatch batch).held q =
      s.pipe.bus.held q := by
    intro q
    split
    · rfl
    · cases q <;> rfl
  refine ⟨h.count, h.inbound, h.hands, ?_, h.popped, ?_, ?_⟩
  · exact fun q item hitem ↦ h.held q item (by rw [← hheld q]; exact hitem)
  · intro item hitem
    obtain ⟨b, hb, hitem⟩ := List.mem_flatten.mp hitem
    exact h.droppers item (List.mem_flatten.mpr ⟨b, List.mem_of_mem_eraseIdx hb, hitem⟩)
  · intro item hitem
    rcases List.mem_append.mp hitem with hitem | hitem
    · exact h.dlq item hitem
    · exact h.droppers item
        (List.mem_flatten.mpr ⟨batch, List.mem_of_getElem? hbatch, hitem⟩)

/-- Every step keeps the ledger right. -/
theorem Traced.step {l : PipelineLabel} (h : s.Traced topicTable) (hinv : s.pipe.Inv)
    (ht : s.step topicTable l = some t) : t.Traced topicTable := by
  cases l with
  | tryPush evt =>
    cases ht
    exact traced_tryPush h evt
  | dispatcher timeout =>
    obtain ⟨pipe, hpipe, rfl⟩ := Option.map_eq_some_iff.mp ht
    exact traced_stepDispatcher h hinv hpipe
  | consume queueId =>
    obtain ⟨pipe, hpipe, rfl⟩ := Option.map_eq_some_iff.mp ht
    exact traced_consume h hpipe
  | dropTake queueId =>
    obtain ⟨pipe, hpipe, rfl⟩ := Option.map_eq_some_iff.mp ht
    exact traced_dropTake h hpipe
  | dropFlush index =>
    obtain ⟨pipe, hpipe, rfl⟩ := Option.map_eq_some_iff.mp ht
    exact traced_dropFlush h hpipe

/-- The ledger is right in every reachable state. -/
theorem Traced.of_reachable {buffer : Fin realtimeCapacity.val → Item}
    (h : (ledger topicTable buffer).Reachable s) : s.Traced topicTable := by
  have hboth : s.Traced topicTable ∧ (pipeline topicTable buffer).Reachable s.pipe := by
    refine Machine.Reachable.invariant
      (I := fun s ↦ s.Traced topicTable ∧ (pipeline topicTable buffer).Reachable s.pipe)
      ?_ ?_ h
    · refine ⟨⟨rfl, ?_, trivial, ?_, ?_, ?_, ?_⟩, .start⟩
      · exact fun item hitem ↦ absurd hitem List.not_mem_nil
      · intro q item hitem
        have hring : (SpscRingBuffer.initial realtimeCapacity buffer).contents = [] :=
          (SpscRingBuffer.View.initial buffer).contents_eq
        cases q with
        | realtime =>
          change item ∈ (SpscRingBuffer.initial realtimeCapacity buffer).contents at hitem
          rw [hring] at hitem
          cases hitem
        | transactional => cases hitem
        | batch => cases hitem
      · exact fun q item hitem ↦ absurd hitem List.not_mem_nil
      · exact fun item hitem ↦ absurd hitem List.not_mem_nil
      · exact fun item hitem ↦ absurd hitem List.not_mem_nil
    · rintro s l t ⟨htraced, hreach⟩ hs
      refine ⟨htraced.step (Pipeline.Inv.of_reachable hreach) hs, ?_⟩
      obtain hsame | ⟨k, hk⟩ := (ledgerToPipeline topicTable buffer).step s l t hs
      · exact Eq.mpr (congrArg (pipeline topicTable buffer).Reachable hsame) hreach
      · exact hreach.step hk
  exact hboth.1

end Ledger

end EventStreamCore.Events
