import EventStreamCore.Events.Ledger

/-!
# What arrives is what was sent

`route`, `src/core/events/dispatcher.cpp:41–82`, writes the priority of an event and `pop`,
`src/core/events/event_bus.cpp:112–157`, its dequeue time; nothing else writes to one on its way
from `tryPush` to a consumer, and each queue of the bus takes the events of its own priorities
only.
-/

namespace EventStreamCore.Events
open EventStreamCore.Lib EventStreamCore.Queues

/-- The event `pop` returns, stamped with what the clock reads; `event_bus.cpp:124`. -/
def Item.stamped (item : Item) (nowNs : UInt64) : Event :=
  { item.event with dequeueTimeNs := nowNs }

/-- The ledger, and the events each consumer got from `pop`. -/
structure Delivery where
  ledger : Ledger
  received : QueueId → List Event

/-- One step of the pipeline while the clock reads `nowNs`. -/
def Delivery.step (topicTable : Option TopicTable) (s : Delivery) :
    PipelineLabel × UInt64 → Option Delivery
  | (.consume queueId, nowNs) =>
    (s.ledger.pipe.bus.pop queueId).bind fun (item, _) ↦
      (s.ledger.step topicTable (.consume queueId)).map fun ledger ↦
        { ledger
          received := Function.update s.received queueId
            (s.received queueId ++ [item.stamped nowNs]) }
  | (l, _) => (s.ledger.step topicTable l).map fun ledger ↦ { s with ledger }

/-- All runs of the pipeline, with the ledger and what the consumers got. -/
def deliveries (topicTable : Option TopicTable) (buffer : Fin realtimeCapacity.val → Item) :
    Machine Delivery (PipelineLabel × UInt64) where
  start := ⟨(ledger topicTable buffer).start, fun _ ↦ []⟩
  step := Delivery.step topicTable

/-- `route` writes nothing but the priority, and the queue follows from the priority it leaves. -/
theorem Dispatcher.route_frame {topicTable : Option TopicTable} {rtPressure : PressureLevel}
    {evt evt' : Event} {q : QueueId} (h : route topicTable rtPressure evt = (evt', q)) :
    evt' = evt.withPriority evt'.header.priority ∧ queueOf evt'.header.priority = q := by
  have hraised : ∃ p, raised topicTable evt = evt.withPriority p := by
    unfold raised
    dsimp only
    split
    · exact ⟨_, rfl⟩
    · exact ⟨evt.header.priority, rfl⟩
  have hadapted : ∀ e : Event, ∃ p, adaptToPressure rtPressure e = e.withPriority p := by
    intro e
    unfold adaptToPressure
    split
    · split
      · exact ⟨_, rfl⟩
      · exact ⟨e.header.priority, rfl⟩
    · split
      · exact ⟨_, rfl⟩
      · exact ⟨e.header.priority, rfl⟩
    · exact ⟨e.header.priority, rfl⟩
  rw [route_eq] at h
  obtain ⟨p, hp⟩ := hraised
  obtain ⟨p', hp'⟩ := hadapted (raised topicTable evt)
  rw [hp', hp] at h
  cases h
  exact ⟨rfl, rfl⟩

/-- A consumer is given each event it pops, stamped, in the order it pops them. -/
def Delivery.Stamped (s : Delivery) : Prop :=
  ∀ q, List.Forall₂ (fun item event ↦ ∃ nowNs, event = item.stamped nowNs) (s.ledger.pipe.popped q)
    (s.received q)

/-- A step that pops nothing gives a consumer nothing. -/
private theorem popped_step_eq {topicTable : Option TopicTable} {s t : Ledger} {l : PipelineLabel}
    (hl : ∀ q, l ≠ .consume q) (h : s.step topicTable l = some t) :
    t.pipe.popped = s.pipe.popped := by
  cases l with
  | tryPush evt =>
    cases h
    show (s.pipe.tryPush evt).popped = s.pipe.popped
    unfold Pipeline.tryPush
    split
    · rfl
    · split <;> rfl
  | dispatcher timeout =>
    obtain ⟨pipe, hpipe, rfl⟩ := Option.map_eq_some_iff.mp h
    exact (Pipeline.stepDispatcher_frame hpipe).1
  | consume queueId => exact absurd rfl (hl queueId)
  | dropTake queueId =>
    obtain ⟨pipe, hpipe, rfl⟩ := Option.map_eq_some_iff.mp h
    change s.pipe.dropTake queueId = some pipe at hpipe
    unfold Pipeline.dropTake at hpipe
    split at hpipe <;> cases hpipe
    rfl
  | dropFlush index =>
    obtain ⟨pipe, hpipe, rfl⟩ := Option.map_eq_some_iff.mp h
    obtain ⟨batch, -, rfl⟩ := Option.map_eq_some_iff.mp hpipe
    rfl

/-- A delivery follows the ledger and stamps what is popped. -/
private theorem Delivery.step_ledger {topicTable : Option TopicTable} {s t : Delivery}
    {l : PipelineLabel} {nowNs : UInt64} (hstamped : s.Stamped)
    (h : s.step topicTable (l, nowNs) = some t) :
    s.ledger.step topicTable l = some t.ledger ∧ t.Stamped := by
  have hother : (∀ q, l ≠ .consume q) →
      (s.ledger.step topicTable l).map (fun ledger ↦ { s with ledger }) = some t →
      s.ledger.step topicTable l = some t.ledger ∧ t.Stamped := by
    intro hl hs
    obtain ⟨ledger, hledger, rfl⟩ := Option.map_eq_some_iff.mp hs
    refine ⟨hledger, fun q ↦ ?_⟩
    show List.Forall₂ _ (ledger.pipe.popped q) (s.received q)
    rw [popped_step_eq hl hledger]
    exact hstamped q
  cases l with
  | tryPush evt => exact hother (fun _ ↦ PipelineLabel.noConfusion) h
  | dispatcher timeout => exact hother (fun _ ↦ PipelineLabel.noConfusion) h
  | dropTake queueId => exact hother (fun _ ↦ PipelineLabel.noConfusion) h
  | dropFlush index => exact hother (fun _ ↦ PipelineLabel.noConfusion) h
  | consume queueId =>
    obtain ⟨⟨item, bus⟩, hpop, hs⟩ := Option.bind_eq_some_iff.mp h
    obtain ⟨ledger, hledger, rfl⟩ := Option.map_eq_some_iff.mp hs
    refine ⟨hledger, fun q ↦ ?_⟩
    obtain ⟨pipe, hpipe, rfl⟩ := Option.map_eq_some_iff.mp hledger
    obtain ⟨popped, hpopped, rfl⟩ := Option.map_eq_some_iff.mp hpipe
    obtain rfl := Option.some.inj (hpop.symm.trans hpopped)
    show List.Forall₂ _ (Function.update s.ledger.pipe.popped queueId _ q)
      (Function.update s.received queueId _ q)
    by_cases hq : q = queueId
    · rw [hq, Function.update_self, Function.update_self]
      exact List.rel_append (hstamped queueId) (.cons ⟨nowNs, rfl⟩ .nil)
    · rw [Function.update_of_ne hq, Function.update_of_ne hq]
      exact hstamped q

/-- Every delivery is a run of the ledger, and what is popped is stamped. -/
theorem Delivery.of_reachable {topicTable : Option TopicTable}
    {buffer : Fin realtimeCapacity.val → Item} {s : Delivery}
    (h : (deliveries topicTable buffer).Reachable s) :
    (Events.ledger topicTable buffer).Reachable s.ledger ∧ s.Stamped := by
  refine Machine.Reachable.invariant
    (I := fun s ↦ (Events.ledger topicTable buffer).Reachable s.ledger ∧ s.Stamped) ?_ ?_ h
  · exact ⟨.start, fun q ↦ .nil⟩
  · rintro s ⟨l, nowNs⟩ t ⟨hreach, hstamped⟩ hs
    obtain ⟨hledger, hstamped'⟩ := Delivery.step_ledger hstamped hs
    exact ⟨hreach.step hledger, hstamped'⟩

end EventStreamCore.Events
