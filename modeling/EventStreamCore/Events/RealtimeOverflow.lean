import EventStreamCore.Events.EventBus
import Mathlib.Data.List.Induction
import Mathlib.Data.List.Nodup
import Mathlib.Data.List.Perm.Subperm

/-!
# The REALTIME ring under overflow

`EventBusMulti::push(REALTIME, ·)`, `src/core/events/event_bus.cpp:37–76`, run by the
dispatcher thread against `EventBusMulti::pop(REALTIME, ·)`, `event_bus.cpp:120–128`, run by
the realtime processor thread, cut at every access to the ring. On overflow the dispatcher
pops as well, so the ring has two consumers. Each `pop` in progress carries the number of
stores to `tail_` that had been made when it loaded `tail_`.
-/

namespace EventStreamCore.Events
open EventStreamCore.Lib EventStreamCore.Queues EventStreamCore.Queues.SpscRingBuffer
open scoped List

universe u

variable {α : Type u}

/-- A `pop` in progress on the REALTIME ring. -/
structure Popping (α : Type u) where
  pc : PopPc realtimeCapacity α
  loadedAt : Nat

/-- A `pop` that has not yet loaded `tail_`. -/
def Popping.begin : Popping α := ⟨.loadTail, 0⟩

/-- One access of a `pop`, `stores` being the number of stores to `tail_` so far. -/
def Popping.step (r : SpscRingBuffer realtimeCapacity α) (stores : Nat) (p : Popping α) :
    SpscRingBuffer realtimeCapacity α × Progress (Popping α) (Option α) :=
  match popStep r p.pc with
  | (r', .running pc) =>
    (r', .running ⟨pc, match p.pc with | .loadTail => stores | _ => p.loadedAt⟩)
  | (r', .returned item) => (r', .returned item)

/-- Where `push(REALTIME, evt)` stands. -/
inductive PushStage (α : Type u) where
  | sizing (pc : SizePc realtimeCapacity)
  | storePressure (used : Nat)
  | pushing (retry : Bool) (pc : PushPc realtimeCapacity)
  | evicting (p : Popping α)
  | dlqOld (old : α)
  | dlqIncoming

/-- The REALTIME side of the bus with its two threads and their histories: values
published by a store to `head_`, removed by a store to `tail_`, accepted by a `push` that
returned true, returned by the processor's `pop`, returned by the overflow path's `pop`
and put into the dead letter queue by it, or put there because the retry failed. -/
structure Overflow (α : Type u) where
  bus : RealtimeQueue α
  dlq : DeadLetterQueue α
  metrics : Metrics
  dispatcher : Option (α × PushStage α)
  processor : Option (Popping α)
  published : List α
  removed : List α
  accepted : List α
  delivered : List α
  evicted : List α
  dlqOld : List α
  dlqIncoming : List α

/-- What a step is: the start of a call, or the next access of a thread. -/
inductive OverflowLabel (α : Type u) where
  | callPush (evt : α)
  | dispatcher
  | callPop
  | processor

namespace Overflow

/-- Replace the ring. -/
def withRing (s : Overflow α) (ringBuffer : SpscRingBuffer realtimeCapacity α) : Overflow α :=
  { s with bus := { s.bus with ringBuffer } }

/-- Move the dispatcher to another stage of its call. -/
def goto (s : Overflow α) (evt : α) (stage : PushStage α) : Overflow α :=
  { s with dispatcher := some (evt, stage) }

/-- The next access of `ringBuffer.push(evt)`, at the first attempt or at the retry. -/
def stepPushing (s : Overflow α) (evt : α) (retry : Bool) (pc : PushPc realtimeCapacity) :
    Overflow α :=
  let published := s.published ++ pc.publishes evt
  match pushStep evt s.bus.ringBuffer pc with
  | (ring, .running pc') => { (s.withRing ring).goto evt (.pushing retry pc') with published }
  | (ring, .returned true) =>
    { s.withRing ring with
      published, dispatcher := none, accepted := s.accepted ++ [evt]
      metrics := s.metrics.processed }
  | (ring, .returned false) =>
    { (s.withRing ring).goto evt
        (if retry = false ∧ s.bus.policy = .dropOld then .evicting .begin else .dlqIncoming) with
      published }

/-- The next access of the overflow path's `ringBuffer.pop()`. -/
def stepEvicting (s : Overflow α) (evt : α) (p : Popping α) : Overflow α :=
  match p.step s.bus.ringBuffer s.removed.length with
  | (ring, .running p') => (s.withRing ring).goto evt (.evicting p')
  | (ring, .returned (some old)) =>
    { (s.withRing ring).goto evt (.dlqOld old) with
      removed := s.removed ++ [old], evicted := s.evicted ++ [old] }
  | (ring, .returned none) => (s.withRing ring).goto evt (.pushing true .loadHead)

/-- The next access of the dispatcher thread. -/
def stepDispatcher (s : Overflow α) (evt : α) : PushStage α → Overflow α
  | .sizing pc =>
    match sizeStep s.bus.ringBuffer pc with
    | .running pc' => s.goto evt (.sizing pc')
    | .returned used => s.goto evt (.storePressure used)
  | .storePressure used =>
    { s with
      bus := { s.bus with pressure := pressureOf used }
      metrics := { s.metrics with currentQueueDepth := UInt64.ofNat used }
      dispatcher := some (evt, .pushing false .loadHead) }
  | .pushing retry pc => s.stepPushing evt retry pc
  | .evicting p => s.stepEvicting evt p
  | .dlqOld old =>
    { s.goto evt (.pushing true .loadHead) with
      dlq := s.dlq.push old, metrics := s.metrics.dropped 1, dlqOld := s.dlqOld ++ [old] }
  | .dlqIncoming =>
    { s with
      dispatcher := none, dlq := s.dlq.push evt, metrics := s.metrics.dropped 1
      dlqIncoming := s.dlqIncoming ++ [evt] }

/-- The next access of the processor thread. -/
def stepProcessor (s : Overflow α) (p : Popping α) : Overflow α :=
  match p.step s.bus.ringBuffer s.removed.length with
  | (ring, .running p') => { s.withRing ring with processor := some p' }
  | (ring, .returned (some item)) =>
    { s.withRing ring with
      processor := none, removed := s.removed ++ [item], delivered := s.delivered ++ [item] }
  | (ring, .returned none) => { s.withRing ring with processor := none }

/-- One step of either thread; a thread starts a call only when it is in none. -/
def step (s : Overflow α) : OverflowLabel α → Option (Overflow α)
  | .callPush evt =>
    match s.dispatcher with
    | none => some (s.goto evt (.sizing .loadHead))
    | some _ => none
  | .dispatcher => s.dispatcher.map fun d ↦ s.stepDispatcher d.1 d.2
  | .callPop =>
    match s.processor with
    | none => some { s with processor := some .begin }
    | some _ => none
  | .processor => s.processor.map s.stepProcessor

end Overflow

/-- All runs of the two threads on a new bus. -/
def realtime (buffer : Fin realtimeCapacity.val → α) :
    Machine (Overflow α) (OverflowLabel α) where
  start := ⟨.initial buffer, .initial, .initial, none, none, [], [], [], [], [], [], []⟩
  step := Overflow.step

/-! ### Delivery when pops do not overlap -/

/-- Whether the next access of a `pop` is its store to `tail_`. -/
def Popping.storesTail (p : Popping α) : Bool :=
  match p.pc with
  | .storeTail _ _ => true
  | _ => false

/-- The `pop` that a step advances. -/
def Overflow.poppingOf (s : Overflow α) : OverflowLabel α → Option (Popping α)
  | .dispatcher =>
    match s.dispatcher with
    | some (_, .evicting p) => some p
    | _ => none
  | .processor => s.processor
  | _ => none

/-- The condition on a step: a `pop` stores `tail_` only if no other `pop` has stored it
since this one loaded it. -/
def Exclusive (s : Overflow α) (l : OverflowLabel α) : Prop :=
  ∀ p ∈ s.poppingOf l, p.storesTail → p.loadedAt = s.removed.length

instance (s : Overflow α) (l : OverflowLabel α) : Decidable (Exclusive s l) :=
  inferInstanceAs (Decidable (∀ p ∈ s.poppingOf l, p.storesTail → p.loadedAt = s.removed.length))

/-- What a `pop` in progress knows, as long as no other one stores `tail_`. -/
def Popping.At (log : List α) (lo : Nat) (p : Popping α) : Prop :=
  p.loadedAt ≤ lo ∧ (p.loadedAt = lo → p.pc.At log lo)

private theorem Popping.At.begin (log : List α) (lo : Nat) : Popping.At log lo .begin :=
  ⟨Nat.zero_le lo, fun _ ↦ trivial⟩

private theorem Popping.At.publish {log : List α} {lo : Nat} {p : Popping α} (h : p.At log lo)
    (item : α) : p.At (log ++ [item]) lo :=
  ⟨h.1, fun he ↦ (h.2 he).publish item⟩

private theorem Popping.At.release {log : List α} {lo : Nat} {p : Popping α} (h : p.At log lo) :
    p.At log (lo + 1) := by
  have := h.1
  exact ⟨by omega, fun he ↦ by omega⟩

/-- The step taken by a `pop` that overlaps no store of another one. -/
inductive PoppingOutcome (r : SpscRingBuffer realtimeCapacity α) (log : List α) (lo : Nat) :
    SpscRingBuffer realtimeCapacity α × Progress (Popping α) (Option α) → Prop where
  | running {p' : Popping α} : p'.At log lo → PoppingOutcome r log lo (r, .running p')
  | taken {r' : SpscRingBuffer realtimeCapacity α} {item : α} : r'.View log (lo + 1) →
      r'.buffer = r.buffer → log[lo]? = some item →
      PoppingOutcome r log lo (r', .returned (some item))
  | empty : PoppingOutcome r log lo (r, .returned none)

private theorem popStep_ring {r : SpscRingBuffer realtimeCapacity α}
    {pc : PopPc realtimeCapacity α} (h : ∀ tail item, pc ≠ .storeTail tail item) :
    (∃ pc', popStep r pc = (r, .running pc')) ∨ popStep r pc = (r, .returned none) := by
  cases pc with
  | loadTail => exact .inl ⟨_, rfl⟩
  | loadHead tail =>
    rw [popStep]
    split
    · exact .inr rfl
    · exact .inl ⟨_, rfl⟩
  | readSlot tail => exact .inl ⟨_, rfl⟩
  | storeTail tail item => exact absurd rfl (h tail item)

/-- Every access of such a `pop` has one of the three outcomes. -/
theorem Popping.step_outcome {r : SpscRingBuffer realtimeCapacity α} {log : List α} {lo : Nat}
    {p : Popping α} (hv : r.View log lo) (hp : p.At log lo) (hc : p.storesTail → p.loadedAt = lo) :
    PoppingOutcome r log lo (p.step r lo) := by
  obtain ⟨pc, loadedAt⟩ := p
  by_cases he : loadedAt = lo
  · -- No other store since the load: this is the single consumer's `pop`.
    have ho := popStep_outcome hv (hp.2 he)
    unfold Popping.step
    cases hs : popStep r pc with
    | mk r' result =>
      rw [hs] at ho
      cases ho with
      | running hat =>
        apply PoppingOutcome.running
        cases pc with
        | loadTail => exact ⟨Nat.le_refl lo, fun _ ↦ hat⟩
        | _ => exact ⟨hp.1, fun _ ↦ hat⟩
      | taken hv' hb hitem => exact .taken hv' hb hitem
      | empty _ => exact .empty
  · -- A stale `pop` changes nothing unless it stores `tail_`, which it may not do.
    have hne : ∀ tail item, pc ≠ .storeTail tail item := by
      intro tail item h
      subst h
      exact he (hc rfl)
    rcases popStep_ring (r := r) hne with ⟨pc', hs⟩ | hs
    · unfold Popping.step
      simp only [hs]
      apply PoppingOutcome.running
      cases pc with
      | loadTail =>
        cases hs
        exact ⟨Nat.le_refl lo, fun _ ↦ hv.tail⟩
      | _ => exact ⟨hp.1, fun h ↦ absurd h he⟩
    · unfold Popping.step
      simp only [hs]
      exact .empty

/-- What the dispatcher knows at a stage of its call. -/
def PushStage.At (r : SpscRingBuffer realtimeCapacity α) (log : List α) (lo : Nat) (evt : α) :
    PushStage α → Prop
  | .pushing _ pc => pc.At r log lo evt
  | .evicting p => p.At log lo
  | _ => True

/-- The event the overflow path has taken out and not yet put into the dead letter queue. -/
def PushStage.hands : PushStage α → List α
  | .dlqOld old => [old]
  | _ => []

/-- The event in the hands of the dispatcher's call, if any. -/
def handsOf (dispatcher : Option (α × PushStage α)) : List α :=
  match dispatcher with
  | none => []
  | some (_, stage) => stage.hands

/-- The ring shows what was published and not yet removed, and every removed value went
to exactly one of the two consumers. -/
structure Overflow.Inv (s : Overflow α) : Prop where
  view : s.bus.ringBuffer.View s.published s.removed.length
  prefix_removed : s.removed <+: s.published
  taken : s.removed.Perm (s.delivered ++ s.evicted)
  accepted : s.accepted = s.published
  evicted : s.evicted = s.dlqOld ++ handsOf s.dispatcher
  dispatcher : ∀ evt stage, s.dispatcher = some (evt, stage) →
    stage.At s.bus.ringBuffer s.published s.removed.length evt
  processor : ∀ p, s.processor = some p → p.At s.published s.removed.length

private theorem PushStage.At.release {r r' : SpscRingBuffer realtimeCapacity α} {log : List α}
    {lo : Nat} {evt : α} {stage : PushStage α} (h : stage.At r log lo evt)
    (hb : r'.buffer = r.buffer) : stage.At r' log (lo + 1) evt := by
  cases stage with
  | pushing retry pc => exact PushPc.At.release h hb
  | evicting p => exact Popping.At.release h
  | _ => trivial

private theorem overflow_start (buffer : Fin realtimeCapacity.val → α) :
    (realtime buffer).start.Inv where
  view := View.initial buffer
  prefix_removed := List.prefix_rfl
  taken := List.Perm.nil
  accepted := rfl
  evicted := rfl
  dispatcher := nofun
  processor := nofun

/-- The dispatcher goes to another stage of its call, with the same event in its hands. -/
private theorem Overflow.Inv.setDispatcher {s : Overflow α} {evt : α} {stage : PushStage α}
    (h : s.Inv) (hhands : s.evicted = s.dlqOld ++ stage.hands)
    (hat : stage.At s.bus.ringBuffer s.published s.removed.length evt) :
    Overflow.Inv { s with dispatcher := some (evt, stage) } where
  view := h.view
  prefix_removed := h.prefix_removed
  taken := h.taken
  accepted := h.accepted
  evicted := hhands
  dispatcher e stage he := by
    cases he
    exact hat
  processor := h.processor

private theorem inv_stepPushing {s : Overflow α} {evt : α} {retry : Bool}
    {pc : PushPc realtimeCapacity} (h : s.Inv)
    (hd : s.dispatcher = some (evt, .pushing retry pc)) :
    (s.stepPushing evt retry pc).Inv := by
  have ho := pushStep_outcome h.view (h.dispatcher evt _ hd)
  have hhands := h.evicted
  rw [hd] at hhands
  unfold Overflow.stepPushing
  cases hs : pushStep evt s.bus.ringBuffer pc with
  | mk ring result =>
    rw [hs] at ho
    cases ho with
    | running hv hat hpub =>
      simp only [hpub, List.append_nil]
      refine ⟨hv, h.prefix_removed, h.taken, h.accepted, hhands, ?_, h.processor⟩
      intro e stage he
      cases he
      exact hat
    | accepted hv hpub =>
      simp only [hpub]
      refine ⟨hv, h.prefix_removed.trans (List.prefix_append _ _), h.taken,
        congrArg (· ++ [evt]) h.accepted, hhands, nofun, ?_⟩
      intro p hp
      exact (h.processor p hp).publish evt
    | full _ hpub =>
      simp only [hpub, List.append_nil]
      split
      · exact h.setDispatcher hhands (Popping.At.begin _ _)
      · exact h.setDispatcher hhands trivial

private theorem inv_stepEvicting {s : Overflow α} {evt : α} {p : Popping α} (h : s.Inv)
    (hd : s.dispatcher = some (evt, .evicting p))
    (hc : p.storesTail → p.loadedAt = s.removed.length) : (s.stepEvicting evt p).Inv := by
  have ho := Popping.step_outcome h.view (h.dispatcher evt _ hd) hc
  have hhands := h.evicted
  rw [hd] at hhands
  unfold Overflow.stepEvicting
  cases hs : p.step s.bus.ringBuffer s.removed.length with
  | mk ring result =>
    rw [hs] at ho
    cases ho with
    | running hat => exact h.setDispatcher hhands hat
    | @taken _ old hv _ hitem =>
      have hlen : (s.removed ++ [old]).length = s.removed.length + 1 := by simp
      refine ⟨?_, concat_isPrefix h.prefix_removed hitem, ?_, h.accepted, ?_, ?_, ?_⟩
      · rw [hlen]
        exact hv
      · rw [← List.append_assoc]
        exact h.taken.append_right [old]
      · rw [hhands]
        exact congrArg (· ++ [old]) (List.append_nil _)
      · intro e stage he
        cases he
        trivial
      · intro q hq
        rw [hlen]
        exact (h.processor q hq).release
    | empty => exact h.setDispatcher hhands trivial

/-- A step of the dispatcher keeps the invariant unless it stores `tail_` too late. -/
theorem Overflow.Inv.stepDispatcher {s : Overflow α} {evt : α} {stage : PushStage α} (h : s.Inv)
    (hd : s.dispatcher = some (evt, stage))
    (hc : ∀ p, stage = .evicting p → p.storesTail → p.loadedAt = s.removed.length) :
    (s.stepDispatcher evt stage).Inv := by
  have hhands := h.evicted
  rw [hd] at hhands
  cases stage with
  | sizing pc =>
    cases pc with
    | loadHead => exact h.setDispatcher hhands trivial
    | loadTail head => exact h.setDispatcher hhands trivial
  | storePressure used =>
    refine ⟨⟨h.view.circular, h.view.head, h.view.tail⟩, h.prefix_removed, h.taken, h.accepted,
      hhands, ?_, h.processor⟩
    intro e stage he
    cases he
    trivial
  | pushing retry pc => exact inv_stepPushing h hd
  | evicting p => exact inv_stepEvicting h hd (hc p rfl)
  | dlqOld old =>
    refine ⟨h.view, h.prefix_removed, h.taken, h.accepted, ?_, ?_, h.processor⟩
    · exact hhands.trans (List.append_nil _).symm
    · intro e stage he
      cases he
      trivial
  | dlqIncoming =>
    exact ⟨h.view, h.prefix_removed, h.taken, h.accepted, hhands, nofun, h.processor⟩

/-- A step of the processor keeps the invariant unless it stores `tail_` too late. -/
theorem Overflow.Inv.stepProcessor {s : Overflow α} {p : Popping α} (h : s.Inv)
    (hp : s.processor = some p) (hc : p.storesTail → p.loadedAt = s.removed.length) :
    (s.stepProcessor p).Inv := by
  have ho := Popping.step_outcome h.view (h.processor p hp) hc
  unfold Overflow.stepProcessor
  cases hs : p.step s.bus.ringBuffer s.removed.length with
  | mk ring result =>
    rw [hs] at ho
    cases ho with
    | running hat =>
      refine ⟨h.view, h.prefix_removed, h.taken, h.accepted, h.evicted, h.dispatcher, ?_⟩
      intro q hq
      cases hq
      exact hat
    | @taken _ item hv hb hitem =>
      have hlen : (s.removed ++ [item]).length = s.removed.length + 1 := by simp
      refine ⟨?_, concat_isPrefix h.prefix_removed hitem, ?_, h.accepted, h.evicted, ?_, nofun⟩
      · rw [hlen]
        exact hv
      · calc s.removed ++ [item]
          _ ~ s.delivered ++ s.evicted ++ [item] := h.taken.append_right [item]
          _ ~ s.delivered ++ ([item] ++ s.evicted) := by
            rw [List.append_assoc]
            exact List.perm_append_comm.append_left s.delivered
          _ = s.delivered ++ [item] ++ s.evicted := by rw [List.append_assoc]
      · intro e stage he
        rw [hlen]
        exact (h.dispatcher e stage he).release hb
    | empty =>
      exact ⟨h.view, h.prefix_removed, h.taken, h.accepted, h.evicted, h.dispatcher, nofun⟩

/-- Every step that meets the condition keeps the invariant. -/
theorem Overflow.Inv.step {s t : Overflow α} {l : OverflowLabel α} (h : s.Inv)
    (hg : Exclusive s l) (hs : s.step l = some t) : t.Inv := by
  cases l with
  | callPush evt =>
    simp only [Overflow.step] at hs
    split at hs
    · next hd =>
      cases hs
      have hhands := h.evicted
      rw [hd] at hhands
      exact h.setDispatcher hhands trivial
    · cases hs
  | dispatcher =>
    simp only [Overflow.step, Option.map_eq_some_iff] at hs
    obtain ⟨⟨evt, stage⟩, hd, rfl⟩ := hs
    apply h.stepDispatcher hd
    rintro p rfl
    apply hg p
    rw [Overflow.poppingOf, hd]
    rfl
  | callPop =>
    simp only [Overflow.step] at hs
    split at hs
    · cases hs
      refine ⟨h.view, h.prefix_removed, h.taken, h.accepted, h.evicted, h.dispatcher, ?_⟩
      intro p hp
      cases hp
      exact Popping.At.begin _ _
    · cases hs
  | processor =>
    simp only [Overflow.step, Option.map_eq_some_iff] at hs
    obtain ⟨p, hp, rfl⟩ := hs
    exact h.stepProcessor hp (hg p hp)

/-- In every run in which a `pop` stores `tail_` only if no other `pop` has stored it since
this one loaded it, no published event is returned twice, and between operations every
accepted event is in exactly one place. -/
theorem realtime_exclusive_delivery (buffer : Fin realtimeCapacity.val → α) (s : Overflow α)
    (h : (realtime buffer).ReachableWith Exclusive s) :
    (s.delivered ++ s.evicted).Subperm s.published ∧
    (s.dispatcher = none → s.processor = none →
      s.accepted.Perm (s.bus.ringBuffer.contents ++ s.delivered ++ s.dlqOld)) := by
  have hi : s.Inv :=
    Machine.ReachableWith.invariant (overflow_start buffer) (fun _ _ _ hi hg hs ↦ hi.step hg hs) h
  constructor
  · exact hi.taken.symm.subperm.trans hi.prefix_removed.sublist.subperm
  · intro hd _
    have hev := hi.evicted
    rw [hd] at hev
    have hold : s.evicted = s.dlqOld := hev.trans (List.append_nil _)
    have hsplit : s.published = s.removed ++ s.bus.ringBuffer.contents := by
      rw [hi.view.contents_eq]
      exact (List.prefix_iff_eq_append.mp hi.prefix_removed).symm
    rw [hi.accepted, ← hold]
    calc s.published
      _ = s.removed ++ s.bus.ringBuffer.contents := hsplit
      _ ~ s.bus.ringBuffer.contents ++ s.removed := List.perm_append_comm
      _ ~ s.bus.ringBuffer.contents ++ (s.delivered ++ s.evicted) := hi.taken.append_left _
      _ = s.bus.ringBuffer.contents ++ s.delivered ++ s.evicted := by rw [List.append_assoc]

/-- An event is pushed and then delivered, the two operations one after the other. -/
theorem realtime_exclusive_delivery_single : ∃ s : Overflow Nat,
    (realtime fun _ ↦ 0).ReachableWith Exclusive s ∧ s.accepted = [7] ∧ s.delivered = [7] ∧
    s.accepted.Perm (s.bus.ringBuffer.contents ++ s.delivered ++ s.dlqOld) := by
  let m : Machine (Overflow Nat) (OverflowLabel Nat) := realtime fun _ ↦ 0
  have hrun : (m.runWith Exclusive m.start
      (.callPush 7 :: List.replicate 7 .dispatcher ++ .callPop :: List.replicate 4 .processor)).map
        (fun s ↦ (s.accepted, s.delivered, s.dispatcher.isNone, s.processor.isNone)) =
      some ([7], [7], true, true) := by
    decide +kernel
  obtain ⟨s, hrun, hs⟩ := Option.map_eq_some_iff.mp hrun
  simp only [Prod.mk.injEq, Option.isNone_iff_eq_none] at hs
  have hreach := Machine.ReachableWith.run .start hrun
  exact ⟨s, hreach, hs.1, hs.2.1,
    (realtime_exclusive_delivery _ s hreach).2 hs.2.2.1 hs.2.2.2⟩

/-! ### Two overlapping pops -/

/-- A state between operations in which `items` were pushed and nothing was taken. -/
private structure Filled (buffer : Fin realtimeCapacity.val → α) (items : List α)
    (s : Overflow α) : Prop where
  reachable : (realtime buffer).Reachable s
  view : s.bus.ringBuffer.View items 0
  policy : s.bus.policy = .dropOld
  dispatcher : s.dispatcher = none
  processor : s.processor = none
  published : s.published = items
  accepted : s.accepted = items
  removed : s.removed = []
  delivered : s.delivered = []
  evicted : s.evicted = []
  dlqOld : s.dlqOld = []

private theorem filled_concat {buffer : Fin realtimeCapacity.val → α} {items : List α}
    {s : Overflow α} (h : Filled buffer items s) (room : items.length + 1 < realtimeCapacity.val)
    (evt : α) : ∃ t, Filled buffer (items ++ [evt]) t := by
  have hroom : realtimeCapacity.next s.bus.ringBuffer.head ≠ s.bus.ringBuffer.tail := by
    rw [h.view.head]
    apply mt h.view.full_iff.mp
    omega
  have hrun : (realtime buffer).run s (.callPush evt :: List.replicate 7 .dispatcher) = some
      { s with
        bus := { s.bus with
          ringBuffer := { s.bus.ringBuffer with
            buffer := Function.update s.bus.ringBuffer.buffer s.bus.ringBuffer.head evt
            head := realtimeCapacity.next s.bus.ringBuffer.head }
          pressure := pressureOf s.bus.ringBuffer.size }
        metrics := { s.metrics with
          currentQueueDepth := UInt64.ofNat s.bus.ringBuffer.size }.processed
        dispatcher := none
        published := s.published ++ [evt]
        accepted := s.accepted ++ [evt] } := by
    simp only [List.replicate, Machine.run, realtime, Overflow.step, h.dispatcher, Overflow.goto,
      Option.map_some, Option.bind_some, Overflow.stepDispatcher, Overflow.stepPushing,
      Overflow.withRing, sizeStep, pushStep, if_neg hroom, PushPc.publishes, List.append_nil, size]
  refine ⟨_, h.reachable.run hrun, ?_, h.policy, rfl, h.processor,
    congrArg (· ++ [evt]) h.published, congrArg (· ++ [evt]) h.accepted, h.removed, h.delivered,
    h.evicted, h.dlqOld⟩
  rw [h.view.head]
  exact (h.view.write evt).publish (by omega) (Function.update_self _ _ _)

private theorem exists_filled (buffer : Fin realtimeCapacity.val → α) (items : List α)
    (h : items.length < realtimeCapacity.val) : ∃ s, Filled buffer items s := by
  induction items using List.reverseRecOn with
  | nil => exact ⟨_, .start, View.initial buffer, rfl, rfl, rfl, rfl, rfl, rfl, rfl, rfl, rfl⟩
  | append_singleton items evt ih =>
    rw [List.length_append, List.length_singleton] at h
    obtain ⟨s, hs⟩ := ih (by omega)
    exact filled_concat hs h evt

/-- The processor calls `pop` on a ring that is not empty and stops before its store. -/
private theorem run_pop_until_store (buffer : Fin realtimeCapacity.val → α) (s : Overflow α)
    (hp : s.processor = none) (hne : s.bus.ringBuffer.tail ≠ s.bus.ringBuffer.head) :
    (realtime buffer).run s [.callPop, .processor, .processor, .processor] = some
      { s with processor := some ⟨.storeTail s.bus.ringBuffer.tail
        (s.bus.ringBuffer.buffer s.bus.ringBuffer.tail), s.removed.length⟩ } := by
  simp only [Machine.run, realtime, Overflow.step, hp, Option.map_some, Option.bind_some,
    Overflow.stepProcessor, Overflow.withRing, Popping.begin, Popping.step, popStep, if_neg hne]

/-- The dispatcher calls `push` on a full ring and is about to evict. -/
private theorem run_push_until_evict (buffer : Fin realtimeCapacity.val → α) (s : Overflow α)
    (evt : α) (hd : s.dispatcher = none) (hpolicy : s.bus.policy = .dropOld)
    (hfull : realtimeCapacity.next s.bus.ringBuffer.head = s.bus.ringBuffer.tail) :
    ∃ t, (realtime buffer).run s (.callPush evt :: List.replicate 5 .dispatcher) = some t ∧
      t.bus.ringBuffer = s.bus.ringBuffer ∧ t.dispatcher = some (evt, .evicting .begin) ∧
      t.processor = s.processor ∧ t.published = s.published ∧ t.accepted = s.accepted ∧
      t.delivered = s.delivered ∧ t.evicted = s.evicted ∧ t.dlqOld = s.dlqOld := by
  simp only [List.replicate, Machine.run, realtime, Overflow.step, hd, hpolicy, Overflow.goto,
    Option.map_some, Option.bind_some, Overflow.stepDispatcher, Overflow.stepPushing,
    Overflow.withRing, sizeStep, pushStep, if_pos hfull, and_self, if_true, PushPc.publishes,
    List.append_nil]
  exact ⟨_, rfl, rfl, rfl, rfl, rfl, rfl, rfl, rfl, rfl⟩

/-- The overflow path takes the oldest event and puts it into the dead letter queue. -/
private theorem run_evict (buffer : Fin realtimeCapacity.val → α) (s : Overflow α) (evt : α)
    (hd : s.dispatcher = some (evt, .evicting .begin))
    (hne : s.bus.ringBuffer.tail ≠ s.bus.ringBuffer.head) :
    ∃ t, (realtime buffer).run s (List.replicate 5 .dispatcher) = some t ∧
      t.bus.ringBuffer =
        { s.bus.ringBuffer with tail := realtimeCapacity.next s.bus.ringBuffer.tail } ∧
      t.dispatcher = some (evt, .pushing true .loadHead) ∧ t.processor = s.processor ∧
      t.published = s.published ∧ t.accepted = s.accepted ∧ t.delivered = s.delivered ∧
      t.evicted = s.evicted ++ [s.bus.ringBuffer.buffer s.bus.ringBuffer.tail] ∧
      t.dlqOld = s.dlqOld ++ [s.bus.ringBuffer.buffer s.bus.ringBuffer.tail] := by
  simp only [List.replicate, Machine.run, realtime, Overflow.step, hd, Overflow.goto,
    Option.map_some, Option.bind_some, Overflow.stepDispatcher, Overflow.stepEvicting,
    Overflow.withRing, Popping.begin, Popping.step, popStep, if_neg hne]
  exact ⟨_, rfl, rfl, rfl, rfl, rfl, rfl, rfl, rfl, rfl⟩

/-- The retried push succeeds on a ring with room. -/
private theorem run_retry (buffer : Fin realtimeCapacity.val → α) (s : Overflow α) (evt : α)
    (hd : s.dispatcher = some (evt, .pushing true .loadHead))
    (hroom : realtimeCapacity.next s.bus.ringBuffer.head ≠ s.bus.ringBuffer.tail) :
    ∃ t, (realtime buffer).run s (List.replicate 4 .dispatcher) = some t ∧
      t.dispatcher = none ∧ t.processor = s.processor ∧
      t.published = s.published ++ [evt] ∧ t.accepted = s.accepted ++ [evt] ∧
      t.delivered = s.delivered ∧ t.evicted = s.evicted ∧ t.dlqOld = s.dlqOld := by
  simp only [List.replicate, Machine.run, realtime, Overflow.step, hd, Overflow.goto,
    Option.map_some, Option.bind_some, Overflow.stepDispatcher, Overflow.stepPushing,
    Overflow.withRing, pushStep, if_neg hroom, PushPc.publishes, List.append_nil]
  exact ⟨_, rfl, rfl, rfl, rfl, rfl, rfl, rfl, rfl⟩

/-- The processor stops before its store, the dispatcher overflows and evicts, and the
processor goes on. -/
private theorem filled_overlap {buffer : Fin realtimeCapacity.val → α} {first : α}
    {items : List α} {s : Overflow α} (h : Filled buffer (first :: items) s)
    (full : items.length + 2 = realtimeCapacity.val) (evt : α) :
    ∃ t, (realtime buffer).Reachable t ∧ t.dispatcher = none ∧ t.processor = none ∧
      t.published = first :: items ++ [evt] ∧ t.accepted = first :: items ++ [evt] ∧
      t.delivered = [first] ∧ t.evicted = [first] ∧ t.dlqOld = [first] := by
  have hfull : realtimeCapacity.next s.bus.ringBuffer.head = s.bus.ringBuffer.tail := by
    rw [h.view.head]
    apply h.view.full_iff.mpr
    rw [List.length_cons]
    omega
  have hnext : s.bus.ringBuffer.tail ≠ realtimeCapacity.next s.bus.ringBuffer.tail := by
    rw [h.view.tail, realtimeCapacity.next_ofNat]
    apply mt (Circular.ofNat_eq_ofNat_iff (Nat.zero_le 1) (by omega)).mp
    omega
  have hne : s.bus.ringBuffer.tail ≠ s.bus.ringBuffer.head := by
    rw [h.view.tail]
    apply mt h.view.empty_iff.mp
    rw [List.length_cons]
    omega
  have hfirst : s.bus.ringBuffer.buffer s.bus.ringBuffer.tail = first := by
    have hstored := h.view.circular.stored 0 (Nat.le_refl 0) (by simp)
    rw [h.view.tail]
    exact (Option.some.inj hstored).symm
  have hstopped := h.reachable.run (run_pop_until_store buffer s h.processor hne)
  obtain ⟨q, hq, hqring, hqd, hqp, hqpub, hqacc, hqdel, hqev, hqold⟩ :=
    run_push_until_evict buffer { s with processor := some ⟨.storeTail s.bus.ringBuffer.tail
      (s.bus.ringBuffer.buffer s.bus.ringBuffer.tail), s.removed.length⟩ } evt h.dispatcher
      h.policy hfull
  obtain ⟨t, ht, hring, htd, htp, htpub, htacc, htdel, htev, htold⟩ :=
    run_evict buffer q evt hqd (by rw [hqring]; exact hne)
  rw [hqring] at hring htev htold
  have hroom : realtimeCapacity.next t.bus.ringBuffer.head ≠ t.bus.ringBuffer.tail := by
    rw [hring]
    exact hfull ▸ hnext
  obtain ⟨u, hu, hud, hup, hupub, huacc, hudel, huev, huold⟩ := run_retry buffer t evt htd hroom
  have hstore : (realtime buffer).step u .processor = some
      (u.stepProcessor ⟨.storeTail s.bus.ringBuffer.tail first, s.removed.length⟩) := by
    change u.processor.map u.stepProcessor = _
    rw [hup, htp, hqp, hfirst]
    rfl
  refine ⟨_, (((hstopped.run hq).run ht).run hu).step hstore, hud, rfl, ?_, ?_, ?_, ?_, ?_⟩
  · change u.published = _
    rw [hupub, htpub, hqpub, h.published]
  · change u.accepted = _
    rw [huacc, htacc, hqacc, h.accepted]
  · change u.delivered ++ [first] = _
    rw [hudel, htdel, hqdel, h.delivered]
    rfl
  · change u.evicted = _
    rw [huev, htev, hqev, hfirst, h.evicted]
    rfl
  · change u.dlqOld = _
    rw [huold, htold, hqold, hfirst, h.dlqOld]
    rfl

private theorem zero_cons_range' (n : Nat) :
    0 :: List.range' 1 n ++ [n + 1] = List.range (n + 2) := by
  rw [List.range_succ, List.range_eq_range', List.range'_succ]

/-- With the ring full, the processor stopped between its slot access and its store, and
one more push, the oldest event is both delivered and put into the dead letter queue. -/
theorem overlapping_pops_duplicate : ∃ s : Overflow Nat,
    (realtime fun _ ↦ 0).Reachable s ∧ s.dispatcher = none ∧ s.processor = none ∧
    s.delivered = [0] ∧ s.dlqOld = [0] ∧ s.published = List.range 16384 ∧
    ¬ (s.delivered ++ s.evicted).Subperm s.published ∧
    ¬ s.accepted.Perm (s.bus.ringBuffer.contents ++ s.delivered ++ s.dlqOld) := by
  have hcap : realtimeCapacity.val = 16384 := rfl
  obtain ⟨s, hs⟩ := exists_filled (fun _ ↦ 0) (0 :: List.range' 1 16382)
    (by rw [List.length_cons, List.length_range']; omega)
  obtain ⟨t, hreach, hd, hp, hpub, hacc, hdel, hev, hold⟩ :=
    filled_overlap hs (by rw [List.length_range']; omega) 16383
  have hrange : 0 :: List.range' 1 16382 ++ [16383] = List.range 16384 := zero_cons_range' 16382
  have hdup : ¬ ([0] ++ [0]).Nodup := by decide
  refine ⟨t, hreach, hd, hp, hdel, hold, hpub.trans hrange, ?_, ?_⟩
  · intro hsub
    rw [hdel, hev, hpub, hrange] at hsub
    have hnodup : (List.range 16384).Nodup := List.nodup_range
    have hcount := List.nodup_iff_count_le_one.mp hnodup 0
    exact absurd (hsub.count_le 0) (by rw [List.count_append, List.count_singleton_self]; omega)
  · intro hperm
    rw [hacc, hdel, hold, hrange, List.append_assoc] at hperm
    exact hdup (List.Nodup.of_append_right (hperm.nodup_iff.mp List.nodup_range))

end EventStreamCore.Events
