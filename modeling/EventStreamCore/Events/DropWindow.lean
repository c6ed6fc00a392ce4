import EventStreamCore.Events.DeadLetterQueue
import EventStreamCore.Lib.DropOldest

/-!
# The window of the dead letter queue

Sequences of `push`, `pushBatch` and `clear`, `src/core/events/dead_letter_queue.cpp:9–71`. The
buffer is a bounded queue that gives up its oldest elements, so what it stores are the last of
the events pushed since it was cleared; the count of all drops runs on.
-/

namespace EventStreamCore.Events.DeadLetterQueue
open EventStreamCore.Lib

universe u

variable {ε : Type u}

instance : NeZero maxStoredEvents := ⟨by decide⟩

/-- A buffer that holds what a bounded queue does still does after the next event. -/
theorem store_held (q : DropOldest maxStoredEvents ε) (e : ε) :
    store q.held e = (q.push e).held := by
  rw [store]
  split
  · next hfull =>
    rw [(DropOldest.push_of_full (Nat.le_antisymm q.held_le hfull) e).1]
  · next hroom =>
    rw [(DropOldest.push_of_lt (Nat.lt_of_not_le hroom) e).1]

theorem foldl_store_held (events : List ε) (q : DropOldest maxStoredEvents ε) :
    events.foldl store q.held = (events.foldl DropOldest.push q).held := by
  induction events generalizing q with
  | nil => rfl
  | cons e events ih =>
    rw [List.foldl_cons, List.foldl_cons, store_held]
    exact ih (q.push e)

/-- The last `MAX_STORED_EVENTS` of the events, all if there are fewer. -/
def window (events : List ε) : List ε := events.drop (events.length - maxStoredEvents)

theorem window_nil : window ([] : List ε) = [] := List.drop_nil

theorem length_window (events : List ε) :
    (window events).length = min maxStoredEvents events.length := by
  rw [window, List.length_drop]
  omega

/-- An empty buffer fills to the window of what is stored in it. -/
theorem foldl_store_nil (events : List ε) : events.foldl store [] = window events := by
  have hqueue := foldl_store_held events DropOldest.empty
  rwa [DropOldest.held_foldl_push_empty] at hqueue

/-! ### Sequences of calls -/

/-- A call that changes the queue. -/
inductive Call (ε : Type u) where
  | push (e : ε)
  | pushBatch (events : List ε)
  | clear

/-- The effect of a call; a batch of events has no null pointers. -/
def Call.run (dlq : DeadLetterQueue ε) : Call ε → DeadLetterQueue ε
  | .push e => dlq.push e
  | .pushBatch events => dlq.pushBatch (events.map some)
  | .clear => dlq.clear

/-- The events a call pushes. -/
def Call.pushed : Call ε → List ε
  | .push e => [e]
  | .pushBatch events => events
  | .clear => []

/-- The queue after a sequence of calls. -/
def runCalls (calls : List (Call ε)) : DeadLetterQueue ε := calls.foldl Call.run initial

/-- All events ever pushed. -/
def everPushed (calls : List (Call ε)) : List ε := calls.flatMap Call.pushed

/-- The events pushed since the last `clear`, given those pushed before. -/
def pushedSinceClear (before : List ε) : List (Call ε) → List ε
  | [] => before
  | .clear :: calls => pushedSinceClear [] calls
  | call :: calls => pushedSinceClear (before ++ call.pushed) calls

private theorem run_push (dlq : DeadLetterQueue ε) (call : Call ε) (h : call ≠ .clear) :
    call.run dlq = call.pushed.foldl push dlq := by
  cases call with
  | push e => rfl
  | pushBatch events => exact pushBatch_some dlq events
  | clear => exact absurd rfl h

private theorem totalDropped_run (dlq : DeadLetterQueue ε) (call : Call ε) :
    (call.run dlq).totalDropped = dlq.totalDropped + UInt64.ofNat call.pushed.length := by
  by_cases h : call = .clear
  · subst h
    exact (UInt64.add_zero _).symm
  · rw [run_push dlq call h, foldl_push]

private theorem storedEvents_run (dlq : DeadLetterQueue ε) (call : Call ε) (h : call ≠ .clear) :
    (call.run dlq).storedEvents = call.pushed.foldl store dlq.storedEvents := by
  rw [run_push dlq call h, foldl_push]

/-- The count grows by the events pushed and nothing else changes it. -/
theorem totalDropped_foldl_run (calls : List (Call ε)) (dlq : DeadLetterQueue ε) :
    (calls.foldl Call.run dlq).totalDropped =
      dlq.totalDropped + UInt64.ofNat (everPushed calls).length := by
  induction calls generalizing dlq with
  | nil => exact (UInt64.add_zero _).symm
  | cons call calls ih =>
    have hpushed : everPushed (call :: calls) = call.pushed ++ everPushed calls :=
      List.flatMap_cons
    rw [List.foldl_cons, ih, totalDropped_run, hpushed, List.length_append, UInt64.ofNat_add,
      UInt64.add_assoc]

/-- A buffer that stores the window of some events stores, after further calls, the window of
these events and the later ones, from the last `clear` on. -/
theorem storedEvents_foldl_run (calls : List (Call ε)) (before : List ε)
    (dlq : DeadLetterQueue ε) (hstored : dlq.storedEvents = window before) :
    (calls.foldl Call.run dlq).storedEvents = window (pushedSinceClear before calls) := by
  induction calls generalizing before dlq with
  | nil => exact hstored
  | cons call calls ih =>
    by_cases hclear : call = .clear
    · subst hclear
      exact ih [] dlq.clear window_nil.symm
    · have hnext : (call.run dlq).storedEvents = window (before ++ call.pushed) := by
        rw [storedEvents_run dlq call hclear, hstored, ← foldl_store_nil, ← foldl_store_nil,
          List.foldl_append]
      rw [List.foldl_cons, ih _ _ hnext]
      cases call with
      | push e => rfl
      | pushBatch events => rfl
      | clear => exact absurd rfl hclear

private theorem recentLoop_eq (count : Nat) (rest result : List ε) :
    recentLoop count rest result = result ++ rest.take count := by
  induction count generalizing rest result with
  | zero =>
    rw [recentLoop, List.take_zero, List.append_nil]
  | succ count ih =>
    cases rest with
    | nil => rw [recentLoop, List.take_nil, List.append_nil]
    | cons e rest =>
      rw [recentLoop, ih, List.append_assoc, List.take_succ_cons, List.singleton_append]

/-- `getRecentEvents` gives the newest stored events, the newest first. -/
theorem getRecentEvents_eq (dlq : DeadLetterQueue ε) (maxCount : Nat) :
    dlq.getRecentEvents maxCount = dlq.storedEvents.reverse.take maxCount := by
  rw [getRecentEvents, recentLoop_eq, List.nil_append, ← List.length_reverse,
    ← List.take_eq_take_min]

/-- After any sequence of calls the queue stores the last of the events pushed since the last
`clear`, in push order; a batch does what its events do one by one; the count is that of all
events ever pushed, and `clear` leaves it; `getRecentEvents` gives the newest stored events, the
newest first. -/
theorem runCalls_window (calls : List (Call ε)) :
    let dlq := runCalls calls
    let m := (pushedSinceClear [] calls).length
    dlq.storedEvents = (pushedSinceClear [] calls).drop (m - maxStoredEvents) ∧
      dlq.size = min maxStoredEvents m ∧
      (∀ events : List ε, dlq.pushBatch (events.map some) = events.foldl push dlq) ∧
      dlq.totalDropped = UInt64.ofNat (everPushed calls).length ∧
      dlq.clear.totalDropped = dlq.totalDropped ∧
      ∀ k, dlq.getRecentEvents k = dlq.storedEvents.reverse.take (min k dlq.size) ∧
        (dlq.getRecentEvents k).length = min k dlq.size := by
  intro dlq m
  have hstored : dlq.storedEvents = window (pushedSinceClear [] calls) :=
    storedEvents_foldl_run calls [] initial window_nil.symm
  have htotal : dlq.totalDropped = UInt64.ofNat (everPushed calls).length := by
    have hrun := totalDropped_foldl_run calls (initial : DeadLetterQueue ε)
    exact hrun.trans (UInt64.zero_add _)
  refine ⟨hstored, ?_, pushBatch_some dlq, htotal, rfl, fun k ↦ ⟨?_, ?_⟩⟩
  · rw [size, hstored, length_window]
  · rw [getRecentEvents_eq, size, ← List.length_reverse, ← List.take_eq_take_min]
  · rw [getRecentEvents_eq, List.length_take, List.length_reverse, size]

end EventStreamCore.Events.DeadLetterQueue
