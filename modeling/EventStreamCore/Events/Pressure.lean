import EventStreamCore.Events.Dispatcher

/-!
# Shedding under pressure

Whole calls of `EventBusMulti::push`, `pop` and `dropBatchFromQueue`,
`src/core/events/event_bus.cpp:33–219`, one after another in any order, with calls of
`Dispatcher::route`, `src/core/events/dispatcher.cpp:41–82,132–149`, in between. `route` reads
the pressure level that the last `push` to REALTIME stored, and what it decides may keep that
`push` from being called again.
-/

namespace EventStreamCore.Events
open EventStreamCore.Lib EventStreamCore.Queues

universe u

variable {α : Type u}

/-- How many operations `push` makes at most from here on. -/
def PushOp.rank : PushOp α → Nat
  | .measure => 6
  | .ringPush => 5
  | .ringPop => 4
  | .dlqOld _ => 3
  | .ringRetry => 2
  | .dlqIncoming => 1
  | .lockedPush => 1

/-- There is at least one operation and there are at most six. -/
theorem PushOp.rank_bounds (op : PushOp α) : 0 < op.rank ∧ op.rank ≤ 6 := by
  cases op <;> simp [PushOp.rank]

namespace EventBusMulti

/-- The operations of `push(q, evt)` from `op` on, without interruption: nobody makes room in a
full queue, so the wait times out. -/
def runPush (bus : EventBusMulti α) (q : QueueId) (evt : α) :
    Nat → PushOp α → Option (EventBusMulti α × Bool)
  | 0, _ => none
  | fuel + 1, op =>
    match bus.pushOp q evt true op with
    | none => none
    | some (bus, .running op) => bus.runPush q evt fuel op
    | some (bus, .returned result) => some (bus, result)

/-- `push`. -/
def push (bus : EventBusMulti α) (q : QueueId) (evt : α) : Option (EventBusMulti α × Bool) :=
  bus.runPush q evt 6 (.first q)

/-- The loop of `dropBatchFromQueue(REALTIME)`. -/
def popBatch (bus : EventBusMulti α) : Nat → List α × EventBusMulti α
  | 0 => ([], bus)
  | n + 1 =>
    match bus.realtimeBus.ringBuffer.pop with
    | (_, none) => ([], bus)
    | (ring, some evt) =>
      let (batch, bus) := (bus.setRing ring).popBatch n
      (evt :: batch, bus)

/-- `dropBatchFromQueue`, with the number of events dropped. -/
def dropBatchFromQueue (bus : EventBusMulti α) (q : QueueId) : EventBusMulti α × Nat :=
  let (batch, bus) := if q = .realtime then bus.popBatch dropBatchSize else bus.takeBatch q
  (if batch.isEmpty then bus else bus.flushBatch batch, batch.length)

/-- Every operation of `push` returns or goes on to a later one. -/
theorem pushOp_rank (bus : EventBusMulti α) (q : QueueId) (evt : α) (op : PushOp α) :
    (∃ bus' result, bus.pushOp q evt true op = some (bus', .returned result)) ∨
    ∃ bus' op', bus.pushOp q evt true op = some (bus', .running op') ∧ op'.rank < op.rank := by
  cases op with
  | measure => exact .inr ⟨_, _, rfl, by simp [PushOp.rank]⟩
  | ringPush =>
    rw [pushOp]
    split
    · exact .inl ⟨_, _, rfl⟩
    · refine .inr ⟨_, _, rfl, ?_⟩
      split <;> simp [PushOp.rank]
  | ringPop =>
    rw [pushOp]
    split
    · exact .inr ⟨_, _, rfl, by simp [PushOp.rank]⟩
    · exact .inr ⟨_, _, rfl, by simp [PushOp.rank]⟩
  | dlqOld old => exact .inr ⟨_, _, rfl, by simp [PushOp.rank]⟩
  | ringRetry =>
    rw [pushOp]
    split
    · exact .inl ⟨_, _, rfl⟩
    · exact .inr ⟨_, _, rfl, by simp [PushOp.rank]⟩
  | dlqIncoming => exact .inl ⟨_, _, rfl⟩
  | lockedPush =>
    left
    rw [pushOp]
    split
    · next he =>
      unfold Q.push at he
      split at he
      · split at he <;> cases he
      · cases he
    · exact ⟨_, _, rfl⟩
    · exact ⟨_, _, rfl⟩
    · exact ⟨_, _, rfl⟩

private theorem runPush_isSome (q : QueueId) (evt : α) (fuel : Nat) (bus : EventBusMulti α)
    {op : PushOp α} (h : op.rank ≤ fuel) : (bus.runPush q evt fuel op).isSome := by
  induction fuel generalizing bus op with
  | zero =>
    have := op.rank_bounds
    omega
  | succ fuel ih =>
    unfold runPush
    obtain ⟨bus', result, hstep⟩ | ⟨bus', op', hstep, hrank⟩ := bus.pushOp_rank q evt op
    · rw [hstep]
      rfl
    · rw [hstep]
      exact ih bus' (by omega)

/-- `push` returns. -/
theorem push_isSome (bus : EventBusMulti α) (q : QueueId) (evt : α) :
    (bus.push q evt).isSome :=
  runPush_isSome q evt 6 bus (PushOp.rank_bounds _).2

private theorem runPush_invariant {P : EventBusMulti α → Prop} {q : QueueId} {evt : α}
    (hop : ∀ bus bus' op progress, P bus → bus.pushOp q evt true op = some (bus', progress) →
      P bus')
    {fuel : Nat} {bus bus' : EventBusMulti α} {op : PushOp α} {result : Bool} (h : P bus)
    (hrun : bus.runPush q evt fuel op = some (bus', result)) : P bus' := by
  induction fuel generalizing bus op with
  | zero => cases hrun
  | succ fuel ih =>
    unfold runPush at hrun
    split at hrun
    · cases hrun
    · next bus₁ op₁ hstep => exact ih (hop _ _ _ _ h hstep) hrun
    · next bus₁ result₁ hstep =>
      cases hrun
      exact hop _ _ _ _ h hstep

/-- What every operation of `push` keeps, `push` keeps. -/
theorem push_invariant {P : EventBusMulti α → Prop} {q : QueueId} {evt : α}
    (hop : ∀ bus bus' op progress, P bus → bus.pushOp q evt true op = some (bus', progress) →
      P bus')
    {bus bus' : EventBusMulti α} {result : Bool} (h : P bus)
    (hpush : bus.push q evt = some (bus', result)) : P bus' :=
  runPush_invariant hop h hpush

end EventBusMulti

/-! ### What the locked queues keep -/

/-- A property of a queue that its lock-protected parts keep. -/
structure Q.Kept (P : Q α → Prop) : Prop where
  push : ∀ {q q' : Q α} {evt : α} {timeout : Bool}, P q → q.push evt timeout = .pushed q' → P q'
  pop : ∀ {q q' : Q α} {evt : α}, P q → q.pop = some (evt, q') → P q'
  takeBatch : ∀ {q : Q α}, P q → P q.takeBatch.2

namespace EventBusMulti

/-- A property of TRANSACTIONAL and one of BATCH. -/
structure Queues (P R : Q α → Prop) (bus : EventBusMulti α) : Prop where
  transactional : P bus.transactionalBus
  batch : R bus.batchBus

namespace Queues

variable {P R : Q α → Prop} {bus bus' : EventBusMulti α}

/-- An operation of `push` keeps what the queues keep. -/
theorem pushOp (hP : Q.Kept P) (hR : Q.Kept R) (h : bus.Queues P R) {q : QueueId} {evt : α}
    {timeout : Bool} {op : PushOp α} {progress : Progress (PushOp α) Bool}
    (hop : bus.pushOp q evt timeout op = some (bus', progress)) : bus'.Queues P R := by
  cases op with
  | lockedPush =>
    rw [EventBusMulti.pushOp] at hop
    split at hop
    · cases hop
    · cases hop
      exact h
    · cases hop
      exact ⟨h.transactional, h.batch⟩
    · next queue hq =>
      cases hop
      cases q with
      | batch => exact ⟨h.transactional, hR.push h.batch hq⟩
      | transactional => exact ⟨hP.push h.transactional hq, h.batch⟩
      | realtime => exact ⟨hP.push h.transactional hq, h.batch⟩
  | _ =>
    -- every other operation works on the ring and on the dead letter queue
    rw [EventBusMulti.pushOp] at hop
    first
      | cases hop; exact ⟨h.transactional, h.batch⟩
      | split at hop <;> cases hop <;> exact ⟨h.transactional, h.batch⟩

/-- `pop` keeps what the queues keep. -/
theorem pop (hP : Q.Kept P) (hR : Q.Kept R) (h : bus.Queues P R) {q : QueueId} {evt : α}
    (hpop : bus.pop q = some (evt, bus')) : bus'.Queues P R := by
  cases q with
  | realtime =>
    rw [EventBusMulti.pop] at hpop
    split at hpop <;> cases hpop
    exact ⟨h.transactional, h.batch⟩
  | transactional =>
    obtain ⟨⟨x, queue⟩, hq, hx⟩ := Option.map_eq_some_iff.mp hpop
    cases hx
    exact ⟨hP.pop h.transactional hq, h.batch⟩
  | batch =>
    obtain ⟨⟨x, queue⟩, hq, hx⟩ := Option.map_eq_some_iff.mp hpop
    cases hx
    exact ⟨h.transactional, hR.pop h.batch hq⟩

/-- The locked part of `dropBatchFromQueue` keeps what the queues keep. -/
theorem takeBatch (hP : Q.Kept P) (hR : Q.Kept R) (h : bus.Queues P R) (q : QueueId) :
    (bus.takeBatch q).2.Queues P R := by
  cases q with
  | batch => exact ⟨h.transactional, hR.takeBatch h.batch⟩
  | transactional => exact ⟨hP.takeBatch h.transactional, h.batch⟩
  | realtime => exact ⟨hP.takeBatch h.transactional, h.batch⟩

/-- The loop of `dropBatchFromQueue(REALTIME)` leaves the queues alone. -/
theorem popBatch (h : bus.Queues P R) (n : Nat) : (bus.popBatch n).2.Queues P R := by
  induction n generalizing bus with
  | zero => exact h
  | succ n ih =>
    unfold EventBusMulti.popBatch
    split
    · exact h
    · exact ih ⟨h.transactional, h.batch⟩

/-- `dropBatchFromQueue` keeps what the queues keep. -/
theorem dropBatchFromQueue (hP : Q.Kept P) (hR : Q.Kept R) (h : bus.Queues P R) (q : QueueId) :
    (bus.dropBatchFromQueue q).1.Queues P R := by
  have hflush : ∀ taken : List α × EventBusMulti α, taken.2.Queues P R →
      (if taken.1.isEmpty then taken.2 else taken.2.flushBatch taken.1).Queues P R := by
    intro taken htaken
    split
    · exact htaken
    · exact ⟨htaken.transactional, htaken.batch⟩
  unfold EventBusMulti.dropBatchFromQueue
  apply hflush
  split
  · exact h.popBatch _
  · exact h.takeBatch hP hR q

end Queues


/-- Only the first operation of a `push` to REALTIME stores a pressure level. -/
private theorem pushOp_pressure {bus bus' : EventBusMulti α} {q : QueueId} {evt : α}
    {op : PushOp α} {progress : Progress (PushOp α) Bool} (hop : op.rank < 6)
    (h : bus.pushOp q evt true op = some (bus', progress)) :
    bus'.realtimeBus.pressure = bus.realtimeBus.pressure := by
  cases op with
  | measure => exact absurd hop (by simp [PushOp.rank])
  | ringPush =>
    rw [pushOp] at h
    split at h <;> cases h <;> rfl
  | ringPop =>
    rw [pushOp] at h
    split at h <;> cases h <;> rfl
  | dlqOld old =>
    cases h
    rfl
  | ringRetry =>
    rw [pushOp] at h
    split at h <;> cases h <;> rfl
  | dlqIncoming =>
    cases h
    rfl
  | lockedPush =>
    rw [pushOp] at h
    split at h <;> cases h
    · rfl
    · rfl
    · cases q <;> rfl

private theorem runPush_pressure {q : QueueId} {evt : α} {fuel : Nat}
    {bus bus' : EventBusMulti α} {result : Bool} (op : PushOp α) (hop : op.rank < 6)
    (h : bus.runPush q evt fuel op = some (bus', result)) :
    bus'.realtimeBus.pressure = bus.realtimeBus.pressure := by
  induction fuel generalizing bus op with
  | zero => cases h
  | succ fuel ih =>
    unfold runPush at h
    obtain ⟨bus₁, result₁, hstep⟩ | ⟨bus₁, op₁, hstep, hrank⟩ := bus.pushOp_rank q evt op
    · rw [hstep] at h
      cases h
      exact pushOp_pressure hop hstep
    · rw [hstep] at h
      exact (ih op₁ (Nat.lt_trans hrank hop) h).trans (pushOp_pressure hop hstep)

/-- `push` stores the pressure level of the ring size it finds, if it is to REALTIME. -/
theorem push_pressure {bus bus' : EventBusMulti α} {q : QueueId} {evt : α} {result : Bool}
    (h : bus.push q evt = some (bus', result)) :
    bus'.realtimeBus.pressure =
      if q = .realtime then pressureOf bus.realtimeBus.ringBuffer.size
      else bus.realtimeBus.pressure := by
  cases q with
  | realtime =>
    rw [if_pos rfl]
    exact runPush_pressure .ringPush (by simp [PushOp.rank]) h
  | transactional => exact runPush_pressure .lockedPush (by simp [PushOp.rank]) h
  | batch => exact runPush_pressure .lockedPush (by simp [PushOp.rank]) h

/-- `pop` leaves the pressure level alone. -/
theorem pop_pressure {bus bus' : EventBusMulti α} {q : QueueId} {evt : α}
    (h : bus.pop q = some (evt, bus')) :
    bus'.realtimeBus.pressure = bus.realtimeBus.pressure := by
  cases q with
  | realtime =>
    rw [pop] at h
    split at h <;> cases h
    rfl
  | transactional =>
    obtain ⟨x, -, hx⟩ := Option.map_eq_some_iff.mp h
    cases hx
    rfl
  | batch =>
    obtain ⟨x, -, hx⟩ := Option.map_eq_some_iff.mp h
    cases hx
    rfl

private theorem popBatch_pressure (n : Nat) (bus : EventBusMulti α) :
    (bus.popBatch n).2.realtimeBus.pressure = bus.realtimeBus.pressure := by
  induction n generalizing bus with
  | zero => rfl
  | succ n ih =>
    unfold popBatch
    split
    · rfl
    · exact ih _

/-- `dropBatchFromQueue` leaves the pressure level alone. -/
theorem dropBatchFromQueue_pressure (bus : EventBusMulti α) (q : QueueId) :
    (bus.dropBatchFromQueue q).1.realtimeBus.pressure = bus.realtimeBus.pressure := by
  have htake : ∀ taken : List α × EventBusMulti α,
      (if taken.1.isEmpty then taken.2 else taken.2.flushBatch taken.1).realtimeBus.pressure =
        taken.2.realtimeBus.pressure := by
    intro taken
    split <;> rfl
  unfold dropBatchFromQueue
  refine (htake _).trans ?_
  cases q with
  | realtime => exact popBatch_pressure _ _
  | transactional => rfl
  | batch => rfl

end EventBusMulti

namespace Dispatcher

/-- The event as `route` finds it after the topic table; `dispatcher.cpp:53–64`. -/
def raised (topicTable : Option TopicTable) (evt : Event) : Event :=
  let priority := (topicTable.bind fun table ↦ table.findTopic evt.topic).getD .medium
  if evt.header.priority.toNat < priority.toNat then evt.withPriority priority else evt

/-- `route` is the topic table, then the pressure, then the queue. -/
theorem route_eq (topicTable : Option TopicTable) (rtPressure : PressureLevel) (evt : Event) :
    route topicTable rtPressure evt =
      (adaptToPressure rtPressure (raised topicTable evt),
        queueOf (adaptToPressure rtPressure (raised topicTable evt)).header.priority) := rfl

end Dispatcher

/-- A bus, and the size of the REALTIME ring as the last `push` to it found it. -/
structure PressureRun where
  bus : EventBusMulti Event
  lastUsed : Nat

/-- The next call. -/
inductive PressureLabel where
  | push (q : QueueId) (evt : Event)
  | pop (q : QueueId)
  | dropBatchFromQueue (q : QueueId)
  | route (topicTable : Option TopicTable) (evt : Event)

namespace PressureRun

/-- The size of the REALTIME ring. -/
def used (s : PressureRun) : Nat := s.bus.realtimeBus.ringBuffer.size

/-- One call; `route` changes nothing but its event. -/
def step (s : PressureRun) : PressureLabel → Option PressureRun
  | .push q evt => (s.bus.push q evt).map fun (bus, _) ↦
      ⟨bus, if q = .realtime then s.used else s.lastUsed⟩
  | .pop q =>
    match s.bus.pop q with
    | none => some s
    | some (_, bus) => some { s with bus }
  | .dropBatchFromQueue q => some { s with bus := (s.bus.dropBatchFromQueue q).1 }
  | .route _ _ => some s

/-- What a call of `route` makes of its event. -/
def routed (s : PressureRun) (topicTable : Option TopicTable) (evt : Event) : Event × QueueId :=
  Dispatcher.route topicTable s.bus.realtimeBus.pressure evt

/-- HIGH is lowered to MEDIUM only while the ring holds at least 12000 events, and a HIGH event
routed while it holds fewer goes to REALTIME. -/
def ShedsUnderPressure (s : PressureRun) : PressureLabel → Prop
  | .route topicTable evt =>
    ((Dispatcher.raised topicTable evt).header.priority = .high →
      (s.routed topicTable evt).1.header.priority = .medium → 12000 ≤ s.used) ∧
    (evt.header.priority = .high ∨ (Dispatcher.raised topicTable evt).header.priority = .high →
      s.used < 12000 → (s.routed topicTable evt).2 = .realtime)
  | _ => True

/-- A HIGH event is not routed while the ring holds fewer than 12000 events if the last `push`
to REALTIME found more. -/
def Measured (s : PressureRun) : PressureLabel → Prop
  | .route topicTable evt => (Dispatcher.raised topicTable evt).header.priority = .high →
      s.used < 12000 → s.lastUsed < 12000
  | _ => True

end PressureRun

/-- All orders of calls on a new bus. -/
def pressureRuns (buffer : Fin realtimeCapacity.val → Event) :
    Machine PressureRun PressureLabel where
  start := ⟨.initial buffer, 0⟩
  step := PressureRun.step

namespace PressureRun

variable {s t : PressureRun}

/-- The pressure level is that of the size found last. -/
private theorem step_pressure {l : PressureLabel}
    (h : s.bus.realtimeBus.pressure = pressureOf s.lastUsed) (ht : s.step l = some t) :
    t.bus.realtimeBus.pressure = pressureOf t.lastUsed := by
  cases l with
  | push q evt =>
    obtain ⟨⟨bus, result⟩, hpush, rfl⟩ := Option.map_eq_some_iff.mp ht
    rw [EventBusMulti.push_pressure hpush]
    dsimp only
    split
    · rfl
    · exact h
  | pop q =>
    simp only [step] at ht
    cases hpop : s.bus.pop q with
    | none =>
      rw [hpop] at ht
      cases ht
      exact h
    | some popped =>
      rw [hpop] at ht
      cases ht
      exact (EventBusMulti.pop_pressure hpop).trans h
  | dropBatchFromQueue q =>
    cases ht
    exact (s.bus.dropBatchFromQueue_pressure q).trans h
  | route topicTable evt =>
    cases ht
    exact h

private theorem pressureOf_eq_normal_iff (used : Nat) :
    pressureOf used = .normal ↔ used < 12000 := by
  unfold pressureOf
  split
  · simp
    omega
  · split <;> simp <;> omega

/-- What the pressure makes of an event: HIGH falls to MEDIUM unless the pressure is normal. -/
private theorem adaptToPressure_cases (rtPressure : PressureLevel) (evt : Event) :
    (evt.header.priority = .high ∧ rtPressure ≠ .normal ∧
      (Dispatcher.adaptToPressure rtPressure evt).header.priority = .medium) ∨
    ((evt.header.priority = .high → rtPressure = .normal) ∧
      Dispatcher.adaptToPressure rtPressure evt = evt) := by
  by_cases hhigh : evt.header.priority = .high
  · cases rtPressure with
    | normal => exact .inr ⟨fun _ ↦ rfl, rfl⟩
    | high =>
      exact .inl ⟨hhigh, nofun, by simp [Dispatcher.adaptToPressure, hhigh, Event.withPriority]⟩
    | critical =>
      exact .inl ⟨hhigh, nofun, by simp [Dispatcher.adaptToPressure, hhigh, Event.withPriority]⟩
  · right
    refine ⟨fun h ↦ absurd h hhigh, ?_⟩
    cases rtPressure <;> simp [Dispatcher.adaptToPressure, hhigh]

/-- The topic table never takes a HIGH event out of REALTIME. -/
private theorem raised_of_high {evt : Event} (h : evt.header.priority = .high)
    (topicTable : Option TopicTable) :
    (Dispatcher.raised topicTable evt).header.priority = .high ∨
    (Dispatcher.raised topicTable evt).header.priority = .critical := by
  have habove : ∀ priority : EventPriority,
      EventPriority.high.toNat < priority.toNat → priority = .critical := by
    intro priority hlt
    cases priority <;> first | rfl | exact absurd hlt (by decide)
  unfold Dispatcher.raised
  dsimp only
  split
  · next hlt =>
    rw [h] at hlt
    exact .inr (habove _ hlt)
  · exact .inl h

/-- One call of `route`. -/
private theorem shedsUnderPressure_iff
    (h : s.bus.realtimeBus.pressure = pressureOf s.lastUsed) (l : PressureLabel) :
    s.ShedsUnderPressure l ↔ s.Measured l := by
  cases l with
  | route topicTable evt =>
    simp only [ShedsUnderPressure, Measured, routed, Dispatcher.route_eq, h]
    obtain ⟨hhigh, hraised, hlow⟩ | ⟨hnormal, hsame⟩ :=
      adaptToPressure_cases (pressureOf s.lastUsed) (Dispatcher.raised topicTable evt)
    · rw [ne_eq, pressureOf_eq_normal_iff] at hraised
      rw [hlow]
      constructor
      · intro hsheds _ hused
        exact absurd (hsheds.1 hhigh rfl) (by omega)
      · intro hmeasured
        have hfull : ¬s.used < 12000 := fun hused ↦ hraised (hmeasured hhigh hused)
        exact ⟨fun _ _ ↦ by omega, fun _ hused ↦ absurd hused hfull⟩
    · rw [pressureOf_eq_normal_iff] at hnormal
      rw [hsame]
      constructor
      · exact fun _ hhigh _ ↦ hnormal hhigh
      · intro _
        refine ⟨fun hhigh hmedium ↦ ?_, fun hhigh _ ↦ ?_⟩
        · rw [hhigh] at hmedium
          cases hmedium
        · have hq : (Dispatcher.raised topicTable evt).header.priority = .high ∨
              (Dispatcher.raised topicTable evt).header.priority = .critical :=
            hhigh.elim (raised_of_high · topicTable) .inl
          obtain hq | hq := hq
          · rw [hq]
            rfl
          · rw [hq]
            rfl
  | push q evt => exact Iff.rfl
  | pop q => exact Iff.rfl
  | dropBatchFromQueue q => exact Iff.rfl

end PressureRun

/-- In every run, HIGH events are shed only under pressure exactly when no HIGH event is routed
with fewer than 12000 events in the ring after a `push` to REALTIME that found more. -/
theorem shedsUnderPressure_along_iff (buffer : Fin realtimeCapacity.val → Event)
    (ls : List PressureLabel) :
    (pressureRuns buffer).Along PressureRun.ShedsUnderPressure (pressureRuns buffer).start ls ↔
    (pressureRuns buffer).Along PressureRun.Measured (pressureRuns buffer).start ls :=
  Machine.along_congr (I := fun s ↦ s.bus.realtimeBus.pressure = pressureOf s.lastUsed)
    (fun _ l h ↦ PressureRun.shedsUnderPressure_iff h l)
    (fun _ _ _ h _ ht ↦ PressureRun.step_pressure h ht) rfl ls

/-! ### A level that nobody lowers -/

/-- A `push` to a ring with room. -/
private theorem step_push_of_room {s : PressureRun} (room : s.used < realtimeCapacity.val - 1)
    (evt : Event) : ∃ t, s.step (.push .realtime evt) = some t ∧
      t.used = s.used + 1 ∧ t.lastUsed = s.used := by
  unfold PressureRun.used at room ⊢
  rw [← SpscRingBuffer.length_contents] at room ⊢
  obtain ⟨hfull, -⟩ | ⟨-, hok, hcontents⟩ := s.bus.realtimeBus.ringBuffer.push_contents evt
  · omega
  · cases hpush : s.bus.realtimeBus.ringBuffer.push evt with
    | mk ring ok =>
      rw [hpush] at hok hcontents
      dsimp only at hok hcontents
      subst hok
      simp only [PressureRun.step, EventBusMulti.push, PushOp.first, EventBusMulti.runPush,
        EventBusMulti.pushOp, hpush, Option.map_some, if_true]
      refine ⟨_, rfl, ?_, (SpscRingBuffer.length_contents _).symm⟩
      change ring.size = _
      rw [← SpscRingBuffer.length_contents, hcontents, List.length_append]
      rfl

/-- A `pop` from a ring that is not empty. -/
private theorem step_pop_of_used {s : PressureRun} (hpos : 0 < s.used) :
    ∃ t, s.step (.pop .realtime) = some t ∧ t.used = s.used - 1 ∧ t.lastUsed = s.lastUsed := by
  unfold PressureRun.used at hpos ⊢
  rw [← SpscRingBuffer.length_contents] at hpos ⊢
  obtain ⟨hempty, -⟩ | ⟨item, hitem, hcontents⟩ := s.bus.realtimeBus.ringBuffer.pop_contents
  · rw [hempty] at hpos
    exact absurd hpos (by decide)
  · cases hpop : s.bus.realtimeBus.ringBuffer.pop with
    | mk ring popped =>
      rw [hpop] at hitem hcontents
      dsimp only at hitem hcontents
      subst hitem
      simp only [PressureRun.step, EventBusMulti.pop, hpop]
      refine ⟨_, rfl, ?_, rfl⟩
      change ring.size = _
      rw [← SpscRingBuffer.length_contents, hcontents, List.length_cons]
      rfl

private theorem run_pushes (buffer : Fin realtimeCapacity.val → Event) (evt : Event) (n : Nat)
    {s : PressureRun} (room : s.used + n < realtimeCapacity.val) :
    ∃ t, (pressureRuns buffer).run s (List.replicate n (.push .realtime evt)) = some t ∧
      t.used = s.used + n ∧ (0 < n → t.lastUsed = s.used + n - 1) := by
  induction n generalizing s with
  | zero => exact ⟨s, rfl, rfl, fun h ↦ absurd h (by decide)⟩
  | succ n ih =>
    obtain ⟨r, hstep, hused, hlast⟩ := step_push_of_room (s := s) (by omega) evt
    obtain ⟨t, hrun, htused, htlast⟩ := ih (s := r) (by omega)
    refine ⟨t, (Machine.run_cons_of_step hstep _).trans hrun, by omega, fun _ ↦ ?_⟩
    cases n with
    | zero =>
      cases hrun
      omega
    | succ n =>
      have := htlast (Nat.succ_pos n)
      omega

private theorem run_pops (buffer : Fin realtimeCapacity.val → Event) (n : Nat)
    {s : PressureRun} (hs : n ≤ s.used) :
    ∃ t, (pressureRuns buffer).run s (List.replicate n (.pop .realtime)) = some t ∧
      t.used = s.used - n ∧ t.lastUsed = s.lastUsed := by
  induction n generalizing s with
  | zero => exact ⟨s, rfl, rfl, rfl⟩
  | succ n ih =>
    obtain ⟨r, hstep, hused, hlast⟩ := step_pop_of_used (s := s) (by omega)
    obtain ⟨t, hrun, htused, htlast⟩ := ih (s := r) (by omega)
    exact ⟨t, (Machine.run_cons_of_step hstep _).trans hrun, by omega, htlast.trans hlast⟩

/-- After any number of pushes that fills the ring to 12001 events or more, and as many pops. -/
private theorem latched (buffer : Fin realtimeCapacity.val → Event) {evt : Event}
    (hhigh : evt.header.priority = .high) {n : Nat} (hn : 12000 < n)
    (room : n < realtimeCapacity.val) :
    let ls := List.replicate n (.push .realtime evt) ++ List.replicate n (.pop .realtime)
    (∃ s, (pressureRuns buffer).run (pressureRuns buffer).start ls = some s ∧ s.used = 0 ∧
      (s.routed none evt).2 = .transactional) ∧
    ¬(pressureRuns buffer).Along PressureRun.ShedsUnderPressure (pressureRuns buffer).start
      (ls ++ [.route none evt]) := by
  intro ls
  have hempty : (pressureRuns buffer).start.used = 0 := rfl
  obtain ⟨r, hpushes, hused, hlast⟩ :=
    run_pushes buffer evt n (s := (pressureRuns buffer).start) (by omega)
  obtain ⟨s, hpops, hdrained, hsame⟩ := run_pops buffer n (s := r) (by omega)
  have hrun : (pressureRuns buffer).run (pressureRuns buffer).start ls = some s := by
    rw [Machine.run_append, hpushes]
    exact hpops
  have hs : s.used = 0 := by omega
  have hpressure : s.bus.realtimeBus.pressure = pressureOf s.lastUsed :=
    Machine.Reachable.invariant (m := pressureRuns buffer)
      (I := fun s ↦ s.bus.realtimeBus.pressure = pressureOf s.lastUsed) rfl
      (fun _ _ _ h ht ↦ PressureRun.step_pressure h ht) (Machine.Reachable.run .start hrun)
  have hlevel : s.bus.realtimeBus.pressure ≠ .normal := by
    rw [hpressure, ne_eq, PressureRun.pressureOf_eq_normal_iff, hsame, hlast (by omega)]
    omega
  have hraised : Dispatcher.raised none evt = evt := by
    rw [Dispatcher.raised, hhigh]
    rfl
  have hqueue : (s.routed none evt).2 = .transactional := by
    rw [PressureRun.routed, Dispatcher.route_eq, hraised]
    obtain ⟨-, -, hmedium⟩ | ⟨hnormal, -⟩ :=
      PressureRun.adaptToPressure_cases s.bus.realtimeBus.pressure evt
    · rw [hmedium]
      rfl
    · exact absurd (hnormal hhigh) hlevel
  refine ⟨⟨s, hrun, hs, hqueue⟩, fun hsheds ↦ ?_⟩
  have hrealtime := (hsheds.of_run hrun).2 (.inl hhigh) (by omega)
  rw [hqueue] at hrealtime
  cases hrealtime

/-- The level latches: after a run of HIGH events has filled the ring and the consumer has
drained it, the next HIGH event is lowered to MEDIUM although the ring is empty. -/
theorem pressure_latches :
    let evt : Event := ⟨⟨.tcp, .high, 0, 0, 0, 0, 0⟩, [], [], [], 0⟩
    let m := pressureRuns fun _ ↦ evt
    let ls := List.replicate 12001 (.push .realtime evt) ++ List.replicate 12001 (.pop .realtime)
    (∃ s, m.run m.start ls = some s ∧ s.used = 0 ∧ (s.routed none evt).2 = .transactional) ∧
    ¬m.Along PressureRun.ShedsUnderPressure m.start (ls ++ [.route none evt]) :=
  latched _ rfl (by decide) (by decide)

end EventStreamCore.Events
