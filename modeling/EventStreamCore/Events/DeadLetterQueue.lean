import EventStreamCore.Events.Event

/-!
# The dead letter queue

`DeadLetterQueue`, `src/core/events/dead_letter_queue.cpp:9–71`: a running count of all
dropped events and a window of the most recent ones. The model is generic in the type of
what is stored, so that a run can store events together with what identifies them.
-/

namespace EventStreamCore.Events

universe u

/-- The members of the queue; `dead_letter_queue.hpp:75–77`. -/
structure DeadLetterQueue (ε : Type u) where
  totalDropped : UInt64
  storedEvents : List ε
deriving DecidableEq, Repr

namespace DeadLetterQueue

variable {ε : Type u}

/-- `MAX_STORED_EVENTS`; `dead_letter_queue.hpp:30`. -/
def maxStoredEvents : Nat := 1000

/-- A new queue. -/
def initial : DeadLetterQueue ε := ⟨0, []⟩

/-- Append to the window, giving up its oldest event at capacity. -/
def store (storedEvents : List ε) (e : ε) : List ε :=
  (if storedEvents.length ≥ maxStoredEvents then storedEvents.drop 1 else storedEvents) ++ [e]

/-- `push`; `dead_letter_queue.cpp:9–25`. -/
def push (dlq : DeadLetterQueue ε) (e : ε) : DeadLetterQueue ε :=
  ⟨dlq.totalDropped + 1, store dlq.storedEvents e⟩

/-- `pushBatch`, `dead_letter_queue.cpp:27–48`: a null pointer is counted but not stored. -/
def pushBatch (dlq : DeadLetterQueue ε) (events : List (Option ε)) : DeadLetterQueue ε :=
  if events.isEmpty then dlq
  else ⟨dlq.totalDropped + UInt64.ofNat events.length,
    (events.filterMap id).foldl store dlq.storedEvents⟩

/-- `size`. -/
def size (dlq : DeadLetterQueue ε) : Nat := dlq.storedEvents.length

/-- The loop of `getRecentEvents`: at most `count` steps of the iterator that stands at the head
of its second argument. -/
def recentLoop : Nat → List ε → List ε → List ε
  | 0, _, result => result
  | _ + 1, [], result => result
  | count + 1, e :: rest, result => recentLoop count rest (result ++ [e])

/-- `getRecentEvents`; `dead_letter_queue.cpp:50–64`. -/
def getRecentEvents (dlq : DeadLetterQueue ε) (maxCount : Nat) : List ε :=
  recentLoop (min maxCount dlq.storedEvents.length) dlq.storedEvents.reverse []

/-- `clear`; `dead_letter_queue.cpp:66–71`. -/
def clear (dlq : DeadLetterQueue ε) : DeadLetterQueue ε := ⟨dlq.totalDropped, []⟩

/-- The queue after a history of drops. -/
def ofHistory (events : List ε) : DeadLetterQueue ε := events.foldl push initial

/-- A drop extends the history. -/
theorem ofHistory_concat (events : List ε) (e : ε) :
    ofHistory (events ++ [e]) = (ofHistory events).push e := by
  rw [ofHistory, List.foldl_append]
  rfl

/-- Pushing events one by one counts and stores each of them. -/
theorem foldl_push (dlq : DeadLetterQueue ε) (events : List ε) :
    events.foldl push dlq =
      ⟨dlq.totalDropped + UInt64.ofNat events.length, events.foldl store dlq.storedEvents⟩ := by
  induction events generalizing dlq with
  | nil =>
    obtain ⟨total, stored⟩ := dlq
    simp
  | cons e events ih =>
    rw [List.foldl_cons, ih]
    simp only [push, List.length_cons, List.foldl_cons, UInt64.ofNat_add, mk.injEq, and_true]
    rw [UInt64.add_assoc, UInt64.add_comm 1]
    rfl

/-- A batch without null pointers counts and stores like its events one by one. -/
theorem pushBatch_some (dlq : DeadLetterQueue ε) (events : List ε) :
    dlq.pushBatch (events.map some) = events.foldl push dlq := by
  rw [foldl_push, pushBatch]
  cases events with
  | nil =>
    obtain ⟨total, stored⟩ := dlq
    simp
  | cons e events => simp

/-- A batch of drops extends the history. -/
theorem ofHistory_append (events batch : List ε) :
    ofHistory (events ++ batch) = (ofHistory events).pushBatch (batch.map some) := by
  rw [pushBatch_some, ofHistory, List.foldl_append]
  rfl

/-- Every drop of the history is counted. -/
theorem totalDropped_ofHistory (events : List ε) :
    (ofHistory events).totalDropped = UInt64.ofNat events.length := by
  rw [ofHistory, foldl_push]
  exact UInt64.zero_add _

end DeadLetterQueue
end EventStreamCore.Events
