import EventStreamCore.Events.EventBus

/-!
# Routing and dispatching

`Dispatcher::route` and `adaptToPressure`, `src/core/events/dispatcher.cpp:41–82,132–149`, and
`Dispatcher::dispatchLoop`, `dispatcher.cpp:84–130`, cut at its operations on the queues.
-/

namespace EventStreamCore.Events
open EventStreamCore.Lib

/-- The entries of a `TopicTable`; `topic_table.hpp:31`. -/
abbrev TopicTable := List (Bytes × EventPriority)

/-- `findTopic`; `topic_table.cpp:48–56`. -/
def TopicTable.findTopic (table : TopicTable) (topic : Bytes) : Option EventPriority :=
  table.lookup topic

/-- Write `evt->header.priority`. -/
def Event.withPriority (evt : Event) (priority : EventPriority) : Event :=
  { evt with header := { evt.header with priority } }

namespace Dispatcher

/-- `adaptToPressure`: both raised levels downgrade HIGH to MEDIUM. -/
def adaptToPressure (rtPressure : PressureLevel) (evt : Event) : Event :=
  match rtPressure with
  | .critical => if evt.header.priority = .high then evt.withPriority .medium else evt
  | .high => if evt.header.priority = .high then evt.withPriority .medium else evt
  | .normal => evt

/-- The queue of a final priority; `dispatcher.cpp:68–79`. -/
def queueOf : EventPriority → QueueId
  | .critical | .high => .realtime
  | .medium | .low => .transactional
  | .batch => .batch

/-- `route`: the priority `findTopic` may overwrite starts out as MEDIUM, so an event below
it is raised even if its topic is not listed. -/
def route (topicTable : Option TopicTable) (rtPressure : PressureLevel) (evt : Event) :
    Event × QueueId :=
  let priority := (topicTable.bind fun table ↦ table.findTopic evt.topic).getD .medium
  let evt := if evt.header.priority.toNat < priority.toNat then evt.withPriority priority else evt
  let evt := adaptToPressure rtPressure evt
  (evt, queueOf evt.header.priority)

/-- `MAX_RETRIES` of `dispatchLoop`. -/
def maxRetries : Nat := 3

/-- The capacity of `inbound_queue_`; `dispatcher.hpp:48`. -/
def inboundCapacity : Nat := 65536

end Dispatcher

/-- An accepted event: which acceptance it was, and the event its pointer leads to. -/
structure Item where
  ticket : Nat
  event : Event
deriving DecidableEq, Repr

/-- Where `dispatchLoop` stands: about to pop, to route, in a `push`, or giving up. -/
inductive DispatcherPc where
  | idle
  | route (item : Item)
  | push (item : Item) (queueId : QueueId) (retryCount : Nat) (op : PushOp Item)
  | dlq (item : Item)

/-- The events taken out of a queue by the dispatcher and not yet put anywhere. -/
def DispatcherPc.hands : DispatcherPc → List Item
  | .idle => []
  | .route item => [item]
  | .push item _ _ op => op.hands item
  | .dlq item => [item]

/-- Is the loop between two events? -/
def DispatcherPc.isIdle : DispatcherPc → Bool
  | .idle => true
  | _ => false

/-- The bus queue the next operation works on. -/
def DispatcherPc.target : DispatcherPc → Option QueueId
  | .push _ queueId _ op => some (op.queue queueId)
  | _ => none

/-- Between two events the hands are empty. -/
theorem DispatcherPc.hands_of_isIdle {pc : DispatcherPc} (h : pc.isIdle) : pc.hands = [] := by
  cases pc with
  | idle => rfl
  | _ => cases h

end EventStreamCore.Events
