import EventStreamCore.Events.EventFactory
import EventStreamCore.Processor.Idempotence

/-!
# Ids of different events

`EventFactory::createEvent` numbers events with a 64-bit counter and keeps 32 bits of it,
`src/core/events/event_factory.cpp:31–50`; `TransactionalProcessor::process` takes these 32 bits
for the event's identity, `src/core/processor/transactional.cpp:39–51`. Events are given to one
processor in the order of their creation, each at most once.
-/

namespace EventStreamCore.Processor
open EventStreamCore.Lib EventStreamCore.Events EventStreamCore.Queues EventStreamCore.Storage

/-- The factory, the events created and not yet given away with their numbers, and the
processor. The history has the number and the time of every event that reached `storeEvent`. -/
structure IdRun where
  factory : EventFactory
  created : Nat
  waiting : List (Nat × Event)
  txn : TxnRun
  stored : List (Nat × UInt64)

/-- What happens next. `give` is given what its call reads besides the event. -/
inductive IdLabel where
  | create (a : CreateArgs)
  | skip
  | give (c : ProcessCall)
  | pauseProcessing
  | resumeProcessing

namespace IdRun

/-- A factory whose counter stands anywhere, and a new processor. -/
def initial (globalEventId : UInt64) (maxRetries : Nat) (io : Sinks) : IdRun :=
  ⟨⟨globalEventId⟩, 0, [], TxnRun.initial maxRetries io, []⟩

/-- Create an event. -/
def create (s : IdRun) (a : CreateArgs) : IdRun :=
  let (event, factory) := s.factory.createEvent a
  { s with factory, created := s.created + 1, waiting := s.waiting ++ [(s.created, event)] }

/-- Give an event to the processor. -/
def give (s : IdRun) (number : Nat) (rest : List (Nat × Event)) (c : ProcessCall) : IdRun :=
  { s with
    waiting := rest
    txn := s.txn.process c
    stored := if s.txn.processor.stores c then s.stored ++ [(number, c.nowMs)] else s.stored }

/-- One step; `skip` is an event that goes elsewhere. -/
def step (s : IdRun) : IdLabel → Option IdRun
  | .create a => some (s.create a)
  | .skip =>
    match s.waiting with
    | [] => none
    | _ :: rest => some { s with waiting := rest }
  | .give c =>
    match s.waiting with
    | [] => none
    | (number, event) :: rest => some (s.give number rest { c with event })
  | .pauseProcessing =>
    some { s with txn := { s.txn with processor := s.txn.processor.pauseProcessing } }
  | .resumeProcessing =>
    some { s with txn := { s.txn with processor := s.txn.processor.resumeProcessing } }

/-- The clock does not go back. -/
def ClockForward (s : IdRun) : IdLabel → Prop
  | .give c => s.txn.clock ≤ c.nowMs
  | _ => True

/-- The event given is not discarded as a duplicate. -/
def NotDiscarded (s : IdRun) : IdLabel → Prop
  | .give c => ∀ next ∈ s.waiting.head?,
      s.txn.processor.discards { c with event := next.2 } = false
  | _ => True

/-- No event created a multiple of `2^32` events before the one given was, at the time of the
last cleanup, stored within the window. -/
def Apart (s : IdRun) : IdLabel → Prop
  | .give _ => s.txn.processor.paused = false → ∀ next ∈ s.waiting.head?, ∀ old ∈ s.stored,
      old.1 % 2 ^ 32 = next.1 % 2 ^ 32 → ¬SeenMap.Live s.txn.processor.lastCleanupMs old.2
  | _ => True

instance (s : IdRun) (l : IdLabel) : Decidable (s.ClockForward l) :=
  match l with
  | .give c => inferInstanceAs (Decidable (s.txn.clock ≤ c.nowMs))
  | .create _ | .skip | .pauseProcessing | .resumeProcessing => .isTrue trivial

instance (s : IdRun) (l : IdLabel) : Decidable (s.Apart l) :=
  match l with
  | .give _ => inferInstanceAs (Decidable (s.txn.processor.paused = false →
      ∀ next ∈ s.waiting.head?, ∀ old ∈ s.stored, old.1 % 2 ^ 32 = next.1 % 2 ^ 32 →
        ¬SeenMap.Live s.txn.processor.lastCleanupMs old.2))
  | .create _ | .skip | .pauseProcessing | .resumeProcessing => .isTrue trivial

end IdRun

/-- All orders of creating and giving events. -/
def eventIds (globalEventId : UInt64) (maxRetries : Nat) (io : Sinks) :
    Machine IdRun IdLabel where
  start := IdRun.initial globalEventId maxRetries io
  step := IdRun.step

namespace IdRun

variable {globalEventId : UInt64} {s t : IdRun}

/-- An event's id is its number, counted from where the counter stood, modulo `2^32`, and the
history of the processor is that of the numbers. -/
structure Inv (globalEventId : UInt64) (s : IdRun) : Prop where
  txn : s.txn.Inv
  counter : s.factory.globalEventId.toNat = (globalEventId.toNat + s.created) % 2 ^ 64
  ids : ∀ next ∈ s.waiting,
    next.2.header.id.toNat = (globalEventId.toNat + next.1) % 2 ^ 32
  commits : s.txn.commits.map (fun commit ↦ (commit.eventId.toNat, commit.nowMs)) =
    s.stored.map fun old ↦ ((globalEventId.toNat + old.1) % 2 ^ 32, old.2)

/-- Creating an event. -/
private theorem Inv.create (h : s.Inv globalEventId) (a : CreateArgs) :
    (s.create a).Inv globalEventId where
  txn := h.txn
  counter := by
    change (s.factory.globalEventId + 1).toNat = (globalEventId.toNat + (s.created + 1)) % 2 ^ 64
    rw [UInt64.toNat_add, h.counter]
    change (_ + 1) % 2 ^ 64 = _
    omega
  ids := by
    intro next hnext
    obtain hold | hnew := List.mem_append.mp hnext
    · exact h.ids next hold
    · have hid := s.factory.createEvent_id a
      rw [h.counter] at hid
      rw [List.mem_singleton.mp hnew]
      refine hid.trans ?_
      dsimp only
      omega
  commits := h.commits

/-- Giving an event. -/
private theorem Inv.give (h : s.Inv globalEventId) {number : Nat} {event : Event}
    {rest : List (Nat × Event)} (hwaiting : s.waiting = (number, event) :: rest)
    {c : ProcessCall} (hc : s.txn.clock ≤ c.nowMs) :
    (s.give number rest { c with event }).Inv globalEventId where
  txn := h.txn.process hc
  counter := h.counter
  ids next hnext := h.ids next (hwaiting ▸ List.mem_cons_of_mem _ hnext)
  commits := by
    have hid := h.ids (number, event) (hwaiting ▸ List.mem_cons_self)
    unfold IdRun.give TxnRun.process
    dsimp only at hid ⊢
    by_cases hstores : s.txn.processor.stores { c with event }
    · simp only [hstores, if_true, List.map_append, List.map_cons, List.map_nil, h.commits, hid]
    · simp only [hstores, Bool.false_eq_true, if_false, h.commits]

/-- One step. -/
private theorem Inv.step (h : s.Inv globalEventId) {l : IdLabel} (hl : s.ClockForward l)
    (ht : s.step l = some t) : t.Inv globalEventId := by
  cases l with
  | create a =>
    cases ht
    exact h.create a
  | skip =>
    unfold IdRun.step at ht
    cases hwaiting : s.waiting with
    | nil => simp [hwaiting] at ht
    | cons next rest =>
      rw [hwaiting] at ht
      cases ht
      exact ⟨h.txn, h.counter,
        fun e he ↦ h.ids e (hwaiting ▸ List.mem_cons_of_mem _ he), h.commits⟩
  | give c =>
    unfold IdRun.step at ht
    cases hwaiting : s.waiting with
    | nil => simp [hwaiting] at ht
    | cons next rest =>
      rw [hwaiting] at ht
      cases ht
      exact h.give hwaiting hl
  | pauseProcessing =>
    cases ht
    exact ⟨h.txn, h.counter, h.ids, h.commits⟩
  | resumeProcessing =>
    cases ht
    exact ⟨h.txn, h.counter, h.ids, h.commits⟩

/-- The processor knows an event's id exactly when it remembers an event whose number is the
same modulo `2^32`. -/
private theorem Inv.isDuplicate_iff (h : s.Inv globalEventId) {next : Nat × Event}
    (hnext : next ∈ s.waiting) :
    s.txn.processor.dedupTable.isDuplicate next.2.header.id = true ↔
      ∃ old ∈ s.stored, old.1 % 2 ^ 32 = next.1 % 2 ^ 32 ∧
        SeenMap.Live s.txn.processor.lastCleanupMs old.2 := by
  have hid := h.ids next hnext
  rw [Remembers.isDuplicate_iff h.txn]
  constructor
  · rintro ⟨commit, hcommit, heq, hlive⟩
    have hmem := List.mem_map_of_mem (f := fun commit ↦ (commit.eventId.toNat, commit.nowMs))
      hcommit
    rw [h.commits] at hmem
    obtain ⟨old, hold, hpair⟩ := List.mem_map.mp hmem
    rw [Prod.mk.injEq, heq, hid] at hpair
    refine ⟨old, hold, ?_, hpair.2 ▸ hlive⟩
    omega
  · rintro ⟨old, hold, hmod, hlive⟩
    have hmem := List.mem_map_of_mem
      (f := fun old : Nat × UInt64 ↦ ((globalEventId.toNat + old.1) % 2 ^ 32, old.2)) hold
    rw [← h.commits] at hmem
    obtain ⟨commit, hcommit, hpair⟩ := List.mem_map.mp hmem
    rw [Prod.mk.injEq] at hpair
    refine ⟨commit, hcommit, ?_, hpair.2 ▸ hlive⟩
    rw [← UInt32.toNat_inj, hpair.1, hid]
    omega

/-- The event given is taken for a duplicate exactly when it is not apart. -/
private theorem Inv.notDiscarded_iff (h : s.Inv globalEventId) (l : IdLabel) :
    s.NotDiscarded l ↔ s.Apart l := by
  cases l with
  | give c =>
    unfold NotDiscarded Apart
    constructor
    · intro hnew hpaused next hnext old hold hmod hlive
      have hknown := (h.isDuplicate_iff (List.mem_of_mem_head? hnext)).mpr
        ⟨old, hold, hmod, hlive⟩
      have hnot := hnew next hnext
      rw [TransactionalProcessor.discards, hpaused, hknown] at hnot
      cases hnot
    · intro hapart next hnext
      rw [Bool.eq_false_iff]
      intro hd
      rw [TransactionalProcessor.discards, Bool.and_eq_true, Bool.not_eq_true'] at hd
      obtain ⟨old, hold, hmod, hlive⟩ :=
        (h.isDuplicate_iff (List.mem_of_mem_head? hnext)).mp hd.2
      exact hapart hd.1 next hnext old hold hmod hlive
  | create a => exact Iff.rfl
  | skip => exact Iff.rfl
  | pauseProcessing => exact Iff.rfl
  | resumeProcessing => exact Iff.rfl

end IdRun

/-- In every run whose clock does not go back, no event is taken for a duplicate of another
exactly when no event is given while one created a multiple of `2^32` events before it is
remembered. -/
theorem notDiscarded_along_iff (globalEventId : UInt64) (maxRetries : Nat) (io : Sinks)
    (ls : List IdLabel)
    (hclock : (eventIds globalEventId maxRetries io).Along IdRun.ClockForward
      (eventIds globalEventId maxRetries io).start ls) :
    (eventIds globalEventId maxRetries io).Along IdRun.NotDiscarded
      (eventIds globalEventId maxRetries io).start ls ↔
    (eventIds globalEventId maxRetries io).Along IdRun.Apart
      (eventIds globalEventId maxRetries io).start ls := by
  have hstart : (eventIds globalEventId maxRetries io).start.Inv globalEventId := by
    refine ⟨Remembers.start, ?_, fun _ h ↦ (by cases h), rfl⟩
    exact (Nat.mod_eq_of_lt globalEventId.toNat_lt).symm
  have hboth := Machine.along_congr (m := eventIds globalEventId maxRetries io)
    (I := IdRun.Inv globalEventId)
    (P := fun s l ↦ s.ClockForward l ∧ s.NotDiscarded l)
    (Q := fun s l ↦ s.ClockForward l ∧ s.Apart l)
    (fun s l h ↦ and_congr_right fun _ ↦ h.notDiscarded_iff l)
    (fun s l t h hl ht ↦ h.step hl.1 ht) hstart ls
  rw [Machine.along_and, Machine.along_and] at hboth
  exact (and_iff_right hclock).symm.trans (hboth.trans (and_iff_right hclock))

/-- Two events created one after the other, where the counter leaves its low 32 bits: the second
is not taken for a duplicate of the first. -/
theorem notDiscarded_two_events :
    let m := eventIds 4294967295 3 ⟨some .initial, none, []⟩
    let args : CreateArgs := ⟨.tcp, .medium, [], [112], [], 0⟩
    let call : ProcessCall :=
      ⟨⟨⟨.tcp, .medium, 0, 0, 0, 0, 0⟩, [], [], [], 0⟩, [], 1, 1, 1, 0, false⟩
    let ls : List IdLabel := [.create args, .give call, .create args, .give call]
    m.Along IdRun.ClockForward m.start ls ∧ m.Along IdRun.NotDiscarded m.start ls := by
  intro m args call ls
  have hclock : m.Along IdRun.ClockForward m.start ls := by decide +kernel
  exact ⟨hclock, (notDiscarded_along_iff _ _ _ _ hclock).mpr (by decide +kernel)⟩

/-- Creating events that go elsewhere moves the counter. -/
private theorem along_skipped {m : Machine IdRun IdLabel} (hm : m.step = IdRun.step)
    {P : IdRun → IdLabel → Prop} (hcreate : ∀ s a, P s (.create a)) (hskip : ∀ s, P s .skip)
    (a : CreateArgs) (rest : List IdLabel) (k : Nat) {s : IdRun} (hs : s.waiting = []) :
    m.Along P s ((List.replicate k [.create a, .skip]).flatten ++ rest) ↔
      m.Along P
        { s with
          factory := ⟨s.factory.globalEventId + UInt64.ofNat k⟩
          created := s.created + k } rest := by
  induction k generalizing s with
  | zero =>
    have hzero : s.factory.globalEventId + UInt64.ofNat 0 = s.factory.globalEventId :=
      UInt64.add_zero _
    rw [hzero]
    exact Iff.rfl
  | succ k ih =>
    have hfirst : m.step s (.create a) = some (s.create a) := by rw [hm]; rfl
    have hsecond : m.step (s.create a) .skip = some { s.create a with waiting := [] } := by
      rw [hm]
      simp only [IdRun.step, IdRun.create, hs, List.nil_append]
    rw [List.replicate_succ, List.flatten_cons, List.append_assoc, List.cons_append,
      List.cons_append, List.nil_append, Machine.along_cons_of_step hfirst,
      Machine.along_cons_of_step hsecond, and_iff_right (hcreate s a), and_iff_right (hskip _),
      ih rfl]
    have hcounter : s.factory.globalEventId + 1 + UInt64.ofNat k =
        s.factory.globalEventId + UInt64.ofNat (k + 1) := by
      rw [UInt64.ofNat_add, UInt64.add_assoc, UInt64.add_comm (UInt64.ofNat k)]
      rfl
    have hcreated : s.created + 1 + k = s.created + (k + 1) := by omega
    simp only [IdRun.create, EventFactory.createEvent, hcounter, hcreated, ← hs]

/-- The event created `2^32` events after one that was just stored is discarded as its
duplicate. -/
theorem wrapped_id_discarded :
    let m := eventIds 0 3 ⟨some .initial, none, []⟩
    let args : CreateArgs := ⟨.tcp, .medium, [], [112], [], 0⟩
    let call : ProcessCall :=
      ⟨⟨⟨.tcp, .medium, 0, 0, 0, 0, 0⟩, [], [], [], 0⟩, [], 1, 1, 1, 0, false⟩
    let others : List IdLabel := (List.replicate (2 ^ 32 - 1) [.create args, .skip]).flatten
    let ls : List IdLabel :=
      .create args :: .give call :: (others ++ [.create args, .give call])
    m.Along IdRun.ClockForward m.start ls ∧ ¬m.Along IdRun.NotDiscarded m.start ls := by
  intro m args call others ls
  constructor
  · refine (Machine.along_cons_of_step rfl).mpr ⟨trivial, ?_⟩
    refine (Machine.along_cons_of_step rfl).mpr ⟨by decide +kernel, ?_⟩
    refine (along_skipped rfl (fun _ _ ↦ trivial) (fun _ ↦ trivial) args _ _ rfl).mpr ?_
    refine (Machine.along_cons_of_step rfl).mpr ⟨trivial, ?_⟩
    exact (Machine.along_cons_of_step rfl).mpr ⟨by decide +kernel, trivial⟩
  · intro h
    have hgiven := ((Machine.along_cons_of_step rfl).mp h).2
    have hskipped := ((Machine.along_cons_of_step rfl).mp hgiven).2
    have hlast := (along_skipped rfl (fun _ _ ↦ trivial) (fun _ ↦ trivial) args _ _ rfl).mp hskipped
    have hcreated := ((Machine.along_cons_of_step rfl).mp hlast).2
    have hnot := hcreated.1 _ rfl
    exact absurd hnot (by decide +kernel)

end EventStreamCore.Processor
