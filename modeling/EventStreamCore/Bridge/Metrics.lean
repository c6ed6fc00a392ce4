import EventStreamCore.Events.Pressure

/-!
# The metrics of the C interface

`esccore_metrics`, `src/bridge/esccore.cpp:225–248`, and the `EventBusMulti::size` it asks three
times, `src/core/events/event_bus.cpp:15–31`. `size` finds its queue with `getQueue`, which has no
case for the ring, so the depth of REALTIME is that of TRANSACTIONAL.
-/

namespace EventStreamCore.Events
open EventStreamCore.Lib EventStreamCore.Queues

universe u

variable {α : Type u}

/-- `static_cast<int>` of a pressure level. -/
def PressureLevel.toNat : PressureLevel → Nat
  | .normal => 0
  | .high => 1
  | .critical => 2

namespace EventBusMulti

/-- `size`; `event_bus.cpp:26–31`. -/
def size (bus : EventBusMulti α) (q : QueueId) : Nat := (bus.getQueue q).dq.length

/-- The number of events the three queues hold. -/
def total (bus : EventBusMulti α) : Nat :=
  (bus.held .realtime).length + (bus.held .transactional).length + (bus.held .batch).length

end EventBusMulti

/-- A whole call on the bus. -/
inductive BusCall (α : Type u) where
  | push (q : QueueId) (evt : α)
  | pop (q : QueueId)
  | dropBatchFromQueue (q : QueueId)

/-- One call; a `pop` from an empty queue returns nothing. -/
def EventBusMulti.call (bus : EventBusMulti α) : BusCall α → Option (EventBusMulti α)
  | .push q evt => (bus.push q evt).map Prod.fst
  | .pop q => some ((bus.pop q).elim bus Prod.snd)
  | .dropBatchFromQueue q => some (bus.dropBatchFromQueue q).1

/-- All orders of calls on a new bus. -/
def busCalls (buffer : Fin realtimeCapacity.val → α) :
    Machine (EventBusMulti α) (BusCall α) where
  start := .initial buffer
  step := EventBusMulti.call

/-- A queue that never grows beyond its capacity, which is that of TRANSACTIONAL at most. -/
structure Q.Bounded (q : Q α) : Prop where
  policy : q.policy ≠ .dropOld
  length_le : q.dq.length ≤ q.capacity
  capacity_le : q.capacity ≤ 131072

/-- Both queues are bounded; the ring is so by itself. -/
structure EventBusMulti.Bounded (bus : EventBusMulti α) : Prop where
  transactional : bus.transactionalBus.Bounded
  batch : bus.batchBus.Bounded

namespace Q

/-- The lock-protected part of `push` keeps the bound: only DROP_OLD goes on with a full queue. -/
theorem Bounded.push {q q' : Q α} (h : q.Bounded) {evt : α} {timeout : Bool}
    (hq : q.push evt timeout = .pushed q') : q'.Bounded := by
  unfold Q.push at hq
  split at hq
  · next hfull =>
    cases hpolicy : q.policy with
    | dropOld => exact absurd hpolicy h.policy
    | blockProducer =>
      rw [hpolicy] at hq
      cases timeout <;> cases hq
    | dropNew =>
      rw [hpolicy] at hq
      cases hq
  · next hroom =>
    cases hq
    refine ⟨h.policy, ?_, h.capacity_le⟩
    rw [List.length_append]
    exact Nat.lt_of_not_le hroom

/-- The lock-protected part of `pop` keeps the bound. -/
theorem Bounded.pop {q q' : Q α} (h : q.Bounded) {evt : α} (hq : q.pop = some (evt, q')) :
    q'.Bounded := by
  obtain ⟨hdq, hcapacity, hpolicy⟩ := pop_popped hq
  refine ⟨?_, ?_, ?_⟩
  · rw [hpolicy]
    exact h.policy
  · have hle := h.length_le
    rw [hdq, List.length_cons] at hle
    rw [hcapacity]
    omega
  · rw [hcapacity]
    exact h.capacity_le

/-- The lock-protected part of `dropBatchFromQueue` keeps the bound. -/
theorem Bounded.takeBatch {q : Q α} (h : q.Bounded) : q.takeBatch.2.Bounded := by
  refine ⟨h.policy, ?_, h.capacity_le⟩
  have hle := h.length_le
  simp only [Q.takeBatch, List.length_drop]
  omega

private theorem bounded_kept : Kept fun q : Q α ↦ q.Bounded :=
  ⟨fun h hq ↦ h.push hq, fun h hq ↦ h.pop hq, fun h ↦ h.takeBatch⟩

end Q

namespace EventBusMulti

variable {bus bus' : EventBusMulti α}

private theorem bounded_iff : bus.Bounded ↔ bus.Queues Q.Bounded Q.Bounded :=
  ⟨fun h ↦ ⟨h.transactional, h.batch⟩, fun h ↦ ⟨h.transactional, h.batch⟩⟩

/-- Every call keeps the queues within their capacities. -/
theorem Bounded.call (h : bus.Bounded) {c : BusCall α} (hc : bus.call c = some bus') :
    bus'.Bounded := by
  rw [bounded_iff] at h ⊢
  cases c with
  | push q evt =>
    obtain ⟨⟨bus'', result⟩, hpush, rfl⟩ := Option.map_eq_some_iff.mp hc
    refine push_invariant (fun _ _ _ _ hb hop ↦ ?_) h hpush
    exact hb.pushOp Q.bounded_kept Q.bounded_kept hop
  | pop q =>
    cases hpop : bus.pop q with
    | none =>
      simp only [EventBusMulti.call, hpop] at hc
      cases hc
      exact h
    | some popped =>
      simp only [EventBusMulti.call, hpop] at hc
      cases hc
      exact h.pop Q.bounded_kept Q.bounded_kept hpop
  | dropBatchFromQueue q =>
    cases hc
    exact h.dropBatchFromQueue Q.bounded_kept Q.bounded_kept q

/-- The queues stay within their capacities. -/
theorem Bounded.of_reachable {buffer : Fin realtimeCapacity.val → α}
    (h : (busCalls buffer).Reachable bus) : bus.Bounded := by
  refine Machine.Reachable.invariant (I := Bounded) ?_ (fun _ _ _ hb hc ↦ hb.call hc) h
  exact ⟨⟨nofun, Nat.zero_le _, Nat.le_refl _⟩,
    ⟨nofun, Nat.zero_le _, show 32768 ≤ 131072 by decide⟩⟩

end EventBusMulti
end EventStreamCore.Events

namespace EventStreamCore.Bridge
open EventStreamCore.Lib EventStreamCore.Queues EventStreamCore.Events

universe u

variable {α : Type u}

/-- `esc_metrics_t`; `include/eventstream/bridge/esccore.h:69–74`. -/
structure EscMetrics where
  totalEventsProcessed : UInt64
  totalEventsDropped : UInt64
  queueDepth : UInt64
  backpressureLevel : Nat
deriving DecidableEq, Repr

/-- `esccore_metrics` of an initialised engine, given the records of the metric registry. -/
def esccoreMetrics (snapshots : List Metrics) (bus : EventBusMulti α) : EscMetrics where
  totalEventsProcessed := (snapshots.map Metrics.totalEventsProcessed).foldl (· + ·) 0
  totalEventsDropped := (snapshots.map Metrics.totalEventsDropped).foldl (· + ·) 0
  queueDepth := UInt64.ofNat (bus.size .realtime) + UInt64.ofNat (bus.size .transactional) +
    UInt64.ofNat (bus.size .batch)
  backpressureLevel := bus.realtimeBus.pressure.toNat

/-- What the combined depth says. -/
theorem queueDepth_toNat {bus : EventBusMulti α} (h : bus.Bounded) (snapshots : List Metrics) :
    (esccoreMetrics snapshots bus).queueDepth.toNat =
      (bus.held .transactional).length + (bus.held .transactional).length +
        (bus.held .batch).length := by
  have htransactional := Nat.le_trans h.transactional.length_le h.transactional.capacity_le
  have hbatch := Nat.le_trans h.batch.length_le h.batch.capacity_le
  simp only [esccoreMetrics, EventBusMulti.size, EventBusMulti.getQueue, EventBusMulti.held,
    UInt64.toNat_add, UInt64.toNat_ofNat']
  omega

/-- The reported depths are the real ones exactly while REALTIME and TRANSACTIONAL hold equally
many events. -/
theorem depths_real_iff (buffer : Fin realtimeCapacity.val → α) (bus : EventBusMulti α)
    (h : (busCalls buffer).Reachable bus) (snapshots : List Metrics) :
    ((∀ q, bus.size q = (bus.held q).length) ∧
      (esccoreMetrics snapshots bus).queueDepth.toNat = bus.total) ↔
    (bus.held .realtime).length = (bus.held .transactional).length := by
  have hdepth := queueDepth_toNat (EventBusMulti.Bounded.of_reachable h) snapshots
  constructor
  · rintro ⟨hsize, -⟩
    exact (hsize .realtime).symm
  · intro heq
    refine ⟨fun q ↦ ?_, ?_⟩
    · cases q with
      | realtime => exact heq.symm
      | transactional => rfl
      | batch => rfl
    · rw [hdepth, EventBusMulti.total, heq]

/-- One event in each of the two queues, and the depth is two. -/
theorem depths_real_iff_balanced :
    let m : Machine (EventBusMulti Nat) (BusCall Nat) := busCalls fun _ ↦ 0
    ∃ bus, m.Reachable bus ∧ (esccoreMetrics [] bus).queueDepth.toNat = bus.total ∧
      bus.total = 2 := by
  intro m
  have hrun : (m.run m.start [.push .realtime 1, .push .transactional 2]).map
      (fun bus ↦ ((bus.held .realtime).length, (bus.held .transactional).length, bus.total)) =
        some (1, 1, 2) := by
    decide +kernel
  obtain ⟨bus, hrun, hs⟩ := Option.map_eq_some_iff.mp hrun
  simp only [Prod.mk.injEq] at hs
  have hreach := Machine.Reachable.run .start hrun
  exact ⟨bus, hreach, ((depths_real_iff _ bus hreach []).mpr (hs.1.trans hs.2.1.symm)).2, hs.2.2⟩

/-- One REALTIME event, and both depths are zero. -/
theorem depths_missing_realtime :
    let m : Machine (EventBusMulti Nat) (BusCall Nat) := busCalls fun _ ↦ 0
    ∃ bus, m.Reachable bus ∧ bus.held .realtime = [1] ∧ bus.size .realtime = 0 ∧
      bus.total = 1 ∧ (esccoreMetrics [] bus).queueDepth = 0 := by
  intro m
  have hrun : (m.run m.start [.push .realtime 1]).map
      (fun bus ↦ (bus.held .realtime, bus.size .realtime, bus.total,
        (esccoreMetrics [] bus).queueDepth)) = some ([1], 0, 1, 0) := by
    decide +kernel
  obtain ⟨bus, hrun, hs⟩ := Option.map_eq_some_iff.mp hrun
  simp only [Prod.mk.injEq] at hs
  exact ⟨bus, Machine.Reachable.run .start hrun, hs⟩

end EventStreamCore.Bridge
