import EventStreamCore.Events.Pressure
import EventStreamCore.Lib.DropOldest

/-!
# The REALTIME queue as a FIFO

Whole calls of `push(REALTIME)`, `pop(REALTIME)` and `dropBatchFromQueue(REALTIME)`,
`src/core/events/event_bus.cpp:37–76,123–131,159–181`, one after another on a new bus. Under
`DROP_OLD` the ring behaves as a queue of at most 16383 events that gives up its oldest ones to
the dead letter queue.
-/

namespace EventStreamCore.Events
open EventStreamCore.Lib EventStreamCore.Queues

universe u

variable {α : Type u}

/-- A call on the REALTIME queue. -/
inductive RealtimeCall (α : Type u) where
  | push (evt : α)
  | pop
  | dropBatchFromQueue

/-- What a call on the REALTIME queue returns. -/
inductive RealtimeResult (α : Type u) where
  | pushed (ok : Bool)
  | popped (evt : Option α)
  | dropped (n : Nat)
deriving DecidableEq

/-- One call of `EventBusMulti`. -/
def EventBusMulti.realtimeCall (bus : EventBusMulti α) :
    RealtimeCall α → Option (EventBusMulti α × RealtimeResult α)
  | .push evt => (bus.push .realtime evt).map fun (bus, ok) ↦ (bus, .pushed ok)
  | .pop =>
    match bus.pop .realtime with
    | some (evt, bus) => some (bus, .popped (some evt))
    | none => some (bus, .popped none)
  | .dropBatchFromQueue =>
    let (bus, n) := bus.dropBatchFromQueue .realtime
    some (bus, .dropped n)

/-- Calls one after another, with what they return. -/
def EventBusMulti.realtimeCalls (bus : EventBusMulti α) :
    List (RealtimeCall α) → Option (EventBusMulti α × List (RealtimeResult α))
  | [] => some (bus, [])
  | c :: cs =>
    (bus.realtimeCall c).bind fun (bus, result) ↦
      (bus.realtimeCalls cs).map fun (bus, results) ↦ (bus, result :: results)

/-- The REALTIME queue as it is meant to be: at most 16383 events. -/
abbrev RealtimeFifo (α : Type u) : Type u := DropOldest 16383 α

namespace RealtimeFifo

/-- A call of the queue as it is meant to be. -/
def call (q : RealtimeFifo α) : RealtimeCall α → RealtimeFifo α × RealtimeResult α
  | .push evt => (q.push evt, .pushed true)
  | .pop => (q.pop.1, .popped q.pop.2)
  | .dropBatchFromQueue => (q.dropBatch 64, .dropped (min 64 q.held.length))

/-- Calls one after another, with what they return. -/
def calls (q : RealtimeFifo α) :
    List (RealtimeCall α) → RealtimeFifo α × List (RealtimeResult α)
  | [] => (q, [])
  | c :: cs => ((calls (call q c).1 cs).1, (call q c).2 :: (calls (call q c).1 cs).2)

end RealtimeFifo

namespace EventBusMulti

/-- The ring holds what the queue holds, the dead letter queue what it has given up. -/
structure Refines (bus : EventBusMulti α) (q : RealtimeFifo α) : Prop where
  policy : bus.realtimeBus.policy = .dropOld
  held : bus.realtimeBus.ringBuffer.contents = q.held
  lost : bus.dlq = .ofHistory q.lost

variable {bus : EventBusMulti α} {q : RealtimeFifo α}

/-- A new bus has an empty queue. -/
theorem Refines.initial (buffer : Fin realtimeCapacity.val → α) :
    (EventBusMulti.initial buffer).Refines .empty where
  policy := rfl
  held := (SpscRingBuffer.View.initial buffer).contents_eq
  lost := rfl

/-- A ring operation that succeeds, by the events held before and after. -/
private theorem push_eq_of_room {r : SpscRingBuffer realtimeCapacity α} (evt : α)
    (h : r.contents.length < 16383) :
    ∃ ring, r.push evt = (ring, true) ∧ ring.contents = r.contents ++ [evt] := by
  obtain ⟨hfull, -⟩ | ⟨-, hok, hcontents⟩ := r.push_contents evt
  · rw [show realtimeCapacity.val - 1 = 16383 from rfl] at hfull
    omega
  · exact ⟨(r.push evt).1, Prod.ext rfl hok, hcontents⟩

private theorem push_eq_of_full {r : SpscRingBuffer realtimeCapacity α} (evt : α)
    (h : r.contents.length = 16383) : r.push evt = (r, false) := by
  obtain ⟨-, hpush⟩ | ⟨hroom, -⟩ := r.push_contents evt
  · exact hpush
  · rw [show realtimeCapacity.val - 1 = 16383 from rfl] at hroom
    omega

private theorem pop_eq_of_cons {r : SpscRingBuffer realtimeCapacity α} {evt : α} {rest : List α}
    (h : r.contents = evt :: rest) :
    ∃ ring, r.pop = (ring, some evt) ∧ ring.contents = rest := by
  obtain ⟨hempty, -⟩ | ⟨item, hitem, hcontents⟩ := r.pop_contents
  · rw [hempty] at h
    cases h
  · rw [h] at hcontents
    obtain ⟨rfl, hrest⟩ := List.cons.inj hcontents
    exact ⟨r.pop.1, Prod.ext rfl hitem, hrest.symm⟩

private theorem pop_eq_of_nil {r : SpscRingBuffer realtimeCapacity α} (h : r.contents = []) :
    r.pop = (r, none) := by
  obtain ⟨-, hpop⟩ | ⟨item, -, hcontents⟩ := r.pop_contents
  · exact hpop
  · rw [h] at hcontents
    cases hcontents

/-- `push` keeps the incoming event, and gives up the oldest one when the ring is full. -/
theorem Refines.push (h : bus.Refines q) (evt : α) :
    ∃ bus', bus.push .realtime evt = some (bus', true) ∧ bus'.Refines (q.push evt) := by
  by_cases hroom : q.held.length < 16383
  · obtain ⟨ring, hpush, hcontents⟩ := push_eq_of_room evt (h.held ▸ hroom)
    obtain ⟨hheld, hlost⟩ := DropOldest.push_of_lt hroom evt
    simp only [EventBusMulti.push, PushOp.first, runPush, pushOp, hpush]
    refine ⟨_, rfl, h.policy, ?_, ?_⟩
    · rw [hheld, ← h.held]
      exact hcontents
    · rw [hlost]
      exact h.lost
  · have hfull : q.held.length = 16383 := Nat.le_antisymm q.held_le (Nat.le_of_not_lt hroom)
    obtain ⟨old, rest, hold⟩ : ∃ old rest, q.held = old :: rest :=
      List.exists_cons_of_length_pos (by omega)
    obtain ⟨ring, hpop, hrest⟩ := pop_eq_of_cons (h.held.trans hold)
    have hlen : ring.contents.length < 16383 := by
      rw [hold, List.length_cons] at hfull
      rw [hrest]
      omega
    obtain ⟨ring', hretry, hcontents⟩ := push_eq_of_room evt hlen
    obtain ⟨hheld, hlost⟩ := DropOldest.push_of_full hfull evt
    -- the first push fails, the pop takes the oldest event, the second push succeeds
    simp only [EventBusMulti.push, PushOp.first, runPush, pushOp,
      push_eq_of_full evt (h.held ▸ hfull), setRing, h.policy, if_true, hpop, hretry]
    refine ⟨_, rfl, rfl, ?_, ?_⟩
    · rw [hheld, hold]
      exact hcontents.trans (congrArg (· ++ [evt]) hrest)
    · rw [hlost, hold]
      change bus.dlq.push old = .ofHistory (q.lost ++ [old])
      rw [h.lost, DeadLetterQueue.ofHistory_concat]

/-- `pop` takes the oldest event. -/
theorem Refines.pop (h : bus.Refines q) :
    ∃ bus', bus.realtimeCall .pop = some (bus', .popped q.pop.2) ∧ bus'.Refines q.pop.1 := by
  cases hq : q.held with
  | nil =>
    have hres : q.pop.2 = none := congrArg List.head? hq
    have hrest : q.pop.1.held = [] := congrArg (List.drop 1) hq
    have hempty := h.held.trans hq
    refine ⟨bus, ?_, h.policy, hempty.trans hrest.symm, h.lost⟩
    rw [realtimeCall, EventBusMulti.pop, pop_eq_of_nil hempty, hres]
  | cons evt rest =>
    have hres : q.pop.2 = some evt := congrArg List.head? hq
    have hrest : q.pop.1.held = rest := congrArg (List.drop 1) hq
    obtain ⟨ring, hpop, hcontents⟩ := pop_eq_of_cons (h.held.trans hq)
    refine ⟨bus.setRing ring, ?_, h.policy, hcontents.trans hrest.symm, h.lost⟩
    rw [realtimeCall, EventBusMulti.pop, hpop, hres]

/-- The loop of `dropBatchFromQueue` takes the oldest events out and changes nothing else. -/
private theorem popBatch_spec (n : Nat) (bus : EventBusMulti α) :
    (bus.popBatch n).1 = bus.realtimeBus.ringBuffer.contents.take n ∧
    (bus.popBatch n).2.realtimeBus.ringBuffer.contents
      = bus.realtimeBus.ringBuffer.contents.drop n ∧
    (bus.popBatch n).2.realtimeBus.policy = bus.realtimeBus.policy ∧
    (bus.popBatch n).2.dlq = bus.dlq := by
  induction n generalizing bus with
  | zero => exact ⟨List.take_zero.symm, List.drop_zero.symm, rfl, rfl⟩
  | succ n ih =>
    unfold popBatch
    cases hc : bus.realtimeBus.ringBuffer.contents with
    | nil =>
      rw [pop_eq_of_nil hc]
      exact ⟨rfl, hc, rfl, rfl⟩
    | cons evt rest =>
      obtain ⟨ring, hpop, hrest⟩ := pop_eq_of_cons hc
      obtain ⟨hbatch, hcontents, hpolicy, hdlq⟩ := ih (bus.setRing ring)
      rw [hpop]
      refine ⟨?_, ?_, hpolicy, hdlq⟩
      · change evt :: ((bus.setRing ring).popBatch n).1 = _
        rw [hbatch, List.take_succ_cons]
        exact congrArg (fun xs ↦ evt :: xs.take n) hrest
      · change ((bus.setRing ring).popBatch n).2.realtimeBus.ringBuffer.contents = _
        rw [hcontents, List.drop_succ_cons]
        exact congrArg (fun xs ↦ xs.drop n) hrest

/-- `dropBatchFromQueue` gives up to 64 of the oldest events to the dead letter queue. -/
theorem Refines.dropBatchFromQueue (h : bus.Refines q) :
    (bus.dropBatchFromQueue .realtime).1.Refines (q.dropBatch 64) ∧
    (bus.dropBatchFromQueue .realtime).2 = min 64 q.held.length := by
  obtain ⟨hbatch, hcontents, hpolicy, hdlq⟩ := bus.popBatch_spec dropBatchSize
  rw [h.held] at hbatch hcontents
  have hlost : (bus.popBatch dropBatchSize).2.dlq.pushBatch
      ((bus.popBatch dropBatchSize).1.map some) = .ofHistory (q.lost ++ q.held.take 64) := by
    rw [hbatch, hdlq, h.lost, DeadLetterQueue.ofHistory_append]
    rfl
  have hlen : (bus.popBatch dropBatchSize).1.length = min 64 q.held.length := by
    rw [hbatch, List.length_take]
    rfl
  simp only [EventBusMulti.dropBatchFromQueue, if_true]
  refine ⟨?_, hlen⟩
  split
  · next hempty =>
    rw [List.isEmpty_iff.mp hempty] at hlost
    exact ⟨hpolicy.trans h.policy, hcontents, hlost⟩
  · exact ⟨hpolicy.trans h.policy, hcontents, hlost⟩

/-- Every call does what it is meant to do. -/
theorem Refines.call (h : bus.Refines q) (c : RealtimeCall α) :
    ∃ bus', bus.realtimeCall c = some (bus', (RealtimeFifo.call q c).2) ∧
      bus'.Refines (RealtimeFifo.call q c).1 := by
  cases c with
  | push evt =>
    obtain ⟨bus', hpush, hrefines⟩ := h.push evt
    exact ⟨bus', by rw [realtimeCall, hpush]; rfl, hrefines⟩
  | pop => exact h.pop
  | dropBatchFromQueue =>
    obtain ⟨hrefines, hn⟩ := h.dropBatchFromQueue
    refine ⟨_, ?_, hrefines⟩
    change some (_, RealtimeResult.dropped (bus.dropBatchFromQueue .realtime).2) = _
    rw [hn]
    rfl

/-- So does every sequence of calls. -/
theorem Refines.calls (h : bus.Refines q) (cs : List (RealtimeCall α)) :
    ∃ bus', bus.realtimeCalls cs = some (bus', (RealtimeFifo.calls q cs).2) ∧
      bus'.Refines (RealtimeFifo.calls q cs).1 := by
  induction cs generalizing bus q with
  | nil => exact ⟨bus, rfl, h⟩
  | cons c cs ih =>
    obtain ⟨bus₁, hcall, h₁⟩ := h.call c
    obtain ⟨bus₂, hcalls, h₂⟩ := ih h₁
    exact ⟨bus₂, by simp only [realtimeCalls, hcall, Option.bind_some, hcalls]; rfl, h₂⟩

end EventBusMulti

private theorem calls_map_push (q : RealtimeFifo α) (events : List α) :
    RealtimeFifo.calls q (events.map .push)
      = (events.foldl DropOldest.push q, events.map fun _ ↦ .pushed true) := by
  induction events generalizing q with
  | nil => rfl
  | cons evt events ih =>
    rw [List.map_cons, RealtimeFifo.calls, RealtimeFifo.call, ih]
    rfl

/-- Under any sequence of calls the REALTIME ring is a queue of at most 16383 events that gives
up exactly its oldest ones, to the dead letter queue; after pushes alone it holds the last 16383
of the events pushed. -/
theorem realtime_refines_fifo (buffer : Fin realtimeCapacity.val → α) :
    (∀ cs : List (RealtimeCall α), ∃ bus,
      (EventBusMulti.initial buffer).realtimeCalls cs
        = some (bus, (RealtimeFifo.calls .empty cs).2) ∧
      bus.held .realtime = (RealtimeFifo.calls .empty cs).1.held ∧
      bus.dlq = .ofHistory (RealtimeFifo.calls .empty cs).1.lost) ∧
    ∀ events : List α, ∃ bus,
      (EventBusMulti.initial buffer).realtimeCalls (events.map .push)
        = some (bus, events.map fun _ ↦ .pushed true) ∧
      bus.held .realtime = events.drop (events.length - 16383) := by
  have hstart := EventBusMulti.Refines.initial buffer
  constructor
  · intro cs
    obtain ⟨bus, hcalls, hrefines⟩ := hstart.calls cs
    exact ⟨bus, hcalls, hrefines.held, hrefines.lost⟩
  · intro events
    obtain ⟨bus, hcalls, hrefines⟩ := hstart.calls (events.map .push)
    rw [calls_map_push] at hcalls hrefines
    refine ⟨bus, hcalls, ?_⟩
    rw [← DropOldest.held_foldl_push_empty]
    exact hrefines.held

end EventStreamCore.Events
