import EventStreamCore.Events.Pressure

/-!
# The routing law

What `Dispatcher::route`, `src/core/events/dispatcher.cpp:41–82`, is for, stated on its own: the
topic table raises the priority of the topics it lists, pressure lowers HIGH, and the priority
that results names the queue, as in `tests/README.md:111–114`. The code keeps its own default for
a topic that is not listed, and so departs from the law below MEDIUM.
-/

namespace EventStreamCore.Events.Dispatcher

/-- The priority a topic is listed with; without a table no topic is. -/
def listed (topicTable : Option TopicTable) (topic : Bytes) : Option EventPriority :=
  topicTable.bind fun table ↦ table.findTopic topic

/-- The priority after the topic table. -/
def lawfullyRaised (topicTable : Option TopicTable) (evt : Event) : EventPriority :=
  match listed topicTable evt.topic with
  | none => evt.header.priority
  | some priority =>
    if evt.header.priority.toNat < priority.toNat then priority else evt.header.priority

/-- The priority after the pressure. -/
def lawfulPriority (topicTable : Option TopicTable) (rtPressure : PressureLevel) (evt : Event) :
    EventPriority :=
  if lawfullyRaised topicTable evt = .high ∧ (rtPressure = .high ∨ rtPressure = .critical)
  then .medium else lawfullyRaised topicTable evt

/-- The law: nothing but the priority changes, and the queue is the one it names. -/
def routingLaw (topicTable : Option TopicTable) (rtPressure : PressureLevel) (evt : Event) :
    Event × QueueId :=
  (evt.withPriority (lawfulPriority topicTable rtPressure evt),
    match lawfulPriority topicTable rtPressure evt with
    | .high | .critical => .realtime
    | .low | .medium => .transactional
    | .batch => .batch)

/-- The topic is listed, or the client's priority is MEDIUM at least. -/
def Covered (topicTable : Option TopicTable) (evt : Event) : Prop :=
  (listed topicTable evt.topic).isSome ∨
    EventPriority.medium.toNat ≤ evt.header.priority.toNat

/-- The priority `route` arrives at. -/
def routedPriority (topicTable : Option TopicTable) (rtPressure : PressureLevel) (evt : Event) :
    EventPriority :=
  let priority := (listed topicTable evt.topic).getD .medium
  let raised := if evt.header.priority.toNat < priority.toNat then priority else evt.header.priority
  if raised = .high ∧ (rtPressure = .high ∨ rtPressure = .critical) then .medium else raised

private theorem withPriority_self (evt : Event) : evt.withPriority evt.header.priority = evt := rfl

/-- `adaptToPressure` lowers HIGH under pressure and leaves the rest of the event alone. -/
private theorem adaptToPressure_eq (rtPressure : PressureLevel) (evt : Event) :
    adaptToPressure rtPressure evt = evt.withPriority
      (if evt.header.priority = .high ∧ (rtPressure = .high ∨ rtPressure = .critical)
       then .medium else evt.header.priority) := by
  cases rtPressure with
  | normal => simp [adaptToPressure, withPriority_self]
  | high =>
    by_cases h : evt.header.priority = .high
    · simp [adaptToPressure, h]
    · simp [adaptToPressure, h, withPriority_self]
  | critical =>
    by_cases h : evt.header.priority = .high
    · simp [adaptToPressure, h]
    · simp [adaptToPressure, h, withPriority_self]

/-- The code raises to the listed priority, or to MEDIUM when there is none. -/
private theorem raised_eq (topicTable : Option TopicTable) (evt : Event) :
    raised topicTable evt = evt.withPriority
      (if evt.header.priority.toNat < ((listed topicTable evt.topic).getD .medium).toNat
       then (listed topicTable evt.topic).getD .medium else evt.header.priority) := by
  unfold raised listed
  dsimp only
  split
  · rfl
  · exact (withPriority_self evt).symm

/-- `route` changes the priority and nothing else. -/
theorem route_eq_withPriority (topicTable : Option TopicTable) (rtPressure : PressureLevel)
    (evt : Event) :
    route topicTable rtPressure evt = (evt.withPriority (routedPriority topicTable rtPressure evt),
      queueOf (routedPriority topicTable rtPressure evt)) := by
  rw [route_eq, raised_eq, adaptToPressure_eq]
  rfl

/-- The law names the queue as `route` does. -/
private theorem routingLaw_eq (topicTable : Option TopicTable) (rtPressure : PressureLevel)
    (evt : Event) :
    routingLaw topicTable rtPressure evt = (evt.withPriority
      (lawfulPriority topicTable rtPressure evt),
      queueOf (lawfulPriority topicTable rtPressure evt)) := by
  rw [routingLaw]
  cases lawfulPriority topicTable rtPressure evt <;> rfl

/-- The priorities agree on listed topics and from MEDIUM on. -/
private theorem routedPriority_eq_iff (topicTable : Option TopicTable) (rtPressure : PressureLevel)
    (evt : Event) :
    routedPriority topicTable rtPressure evt = lawfulPriority topicTable rtPressure evt ↔
      Covered topicTable evt := by
  unfold routedPriority lawfulPriority lawfullyRaised Covered
  cases hlisted : listed topicTable evt.topic with
  | some priority => simp only [Option.getD_some, Option.isSome_some, true_or]
  | none =>
    simp only [Option.getD_none, Option.isSome_none, Bool.false_eq_true, false_or]
    cases evt.header.priority <;> cases rtPressure <;> decide

/-- `route` follows the law exactly when the topic is listed or the client's priority is MEDIUM at
least: an event below MEDIUM on any other topic is raised to MEDIUM. -/
theorem route_lawful_iff (topicTable : Option TopicTable) (rtPressure : PressureLevel)
    (evt : Event) :
    route topicTable rtPressure evt = routingLaw topicTable rtPressure evt ↔
      Covered topicTable evt := by
  rw [route_eq_withPriority, routingLaw_eq, ← routedPriority_eq_iff]
  constructor
  · intro h
    exact congrArg (fun routed : Event × QueueId ↦ routed.1.header.priority) h
  · intro h
    rw [h]

/-- A BATCH event on a topic that is not listed goes to TRANSACTIONAL as MEDIUM. -/
theorem unlisted_batch_event_raised :
    let table : TopicTable := [([97], .high)]
    let evt : Event := ⟨⟨.tcp, .batch, 1, 0, 0, 1, 0⟩, [98], [], [], 0⟩
    route (some table) .normal evt = (evt.withPriority .medium, .transactional) ∧
    routingLaw (some table) .normal evt = (evt, .batch) := by
  decide

end EventStreamCore.Events.Dispatcher
