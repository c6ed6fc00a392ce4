import EventStreamCore.Queues.MpscConsumer

/-!
# Producers and consumer on the queue

The order in which each producer pushes, and what all runs of the threads of `mpsc.hpp` return.
-/

namespace EventStreamCore.Queues.MpscQueue
open EventStreamCore.Lib

universe u v

variable {ι : Type v} {α : Type u}

/-! ### Program order -/

section Program

variable [DecidableEq ι]

/-- The item of a push that passed the size check and has not exchanged `tail_`. -/
def ProducerPc.unexchanged : ProducerPc α → List α
  | .alloc item => [item]
  | .exchange item _ => [item]
  | _ => []

/-- The values among `log` that came from producer `i`. -/
def fromProducer (i : ι) (log : List (ι × α)) : List α :=
  (log.filter fun e ↦ e.1 = i).map Prod.snd

/-- The values of producer `i` returned by `pop` so far. -/
def State.poppedFrom (s : State ι α) (i : ι) : List α :=
  fromProducer i (s.exchanged.take s.popped.length)

/-- Each producer exchanges the items of its admitted pushes in program order. -/
structure State.Program (s : State ι α) : Prop where
  admitted : ∀ i, fromProducer i s.exchanged ++ (s.producers i).unexchanged = s.admitted i
  calls : ∀ i, (s.admitted i).Sublist (s.calls i)

private theorem program_setProducer {s : State ι α} {i : ι} {pc : ProducerPc α} (h : s.Program)
    (hpc : pc.unexchanged = (s.producers i).unexchanged) (j : ι) :
    fromProducer j s.exchanged ++ ((s.setProducer i pc).producers j).unexchanged =
      s.admitted j := by
  by_cases hj : j = i
  · rw [hj, s.setProducer_self, hpc]
    exact h.admitted i
  · rw [s.setProducer_of_ne hj]
    exact h.admitted j

private theorem program_callPush {s : State ι α} {i : ι} (capacity : Nat) (item : α)
    (h : s.Program) (hi : s.producers i = .idle) : (s.callPush capacity i item).Program := by
  have hcalls : ∀ j, (s.admitted j).Sublist
      (Function.update s.calls i (s.calls i ++ [item]) j) := by
    intro j
    by_cases hj : j = i
    · rw [hj, Function.update_self]
      exact (h.calls i).trans (List.sublist_append_left _ _)
    · rw [Function.update_of_ne hj]
      exact h.calls j
  unfold State.callPush
  split
  · exact ⟨h.admitted, hcalls⟩
  · refine ⟨?_, ?_⟩
    · intro j
      change fromProducer j s.exchanged ++
        ((s.setProducer i (.alloc item)).producers j).unexchanged =
        Function.update s.admitted i (s.admitted i ++ [item]) j
      by_cases hj : j = i
      · have hadm := h.admitted i
        rw [hi] at hadm
        rw [hj, s.setProducer_self, Function.update_self, ← hadm, List.append_assoc]
        rfl
      · rw [s.setProducer_of_ne hj, Function.update_of_ne hj]
        exact h.admitted j
    · intro j
      change (Function.update s.admitted i (s.admitted i ++ [item]) j).Sublist
        (Function.update s.calls i (s.calls i ++ [item]) j)
      by_cases hj : j = i
      · rw [hj, Function.update_self, Function.update_self]
        exact (h.calls i).append (List.Sublist.refl _)
      · rw [Function.update_of_ne hj, Function.update_of_ne hj]
        exact h.calls j

private theorem program_exchange {s : State ι α} {i : ι} {item : α} {node : Nat} (h : s.Program)
    (hi : s.producers i = .exchange item node) : (s.exchange i item node).Program := by
  refine ⟨?_, h.calls⟩
  intro j
  change fromProducer j (s.exchanged ++ [(i, item)]) ++
    ((s.setProducer i (.link node s.tail)).producers j).unexchanged = s.admitted j
  rw [← h.admitted j, fromProducer, List.filter_append, List.map_append, ← fromProducer]
  by_cases hj : j = i
  · subst hj
    rw [s.setProducer_self, hi]
    simp [ProducerPc.unexchanged]
  · rw [s.setProducer_of_ne hj]
    simp [Ne.symm hj]

/-- Every step keeps each producer's program order. -/
theorem State.Program.step {capacity : Nat} {s t : State ι α} {l : Label ι α} (h : s.Program)
    (ht : s.step capacity l = some t) : t.Program := by
  cases l with
  | callPush i item =>
    simp only [State.step] at ht
    split at ht
    · next hi =>
      cases ht
      exact program_callPush capacity item h hi
    · cases ht
  | alloc i node =>
    simp only [State.step] at ht
    split at ht
    · next item hi _ =>
      cases ht
      exact ⟨program_setProducer h (by rw [hi]; rfl), h.calls⟩
    · cases ht
  | producer i =>
    simp only [State.step, State.stepProducer] at ht
    split at ht
    · cases ht
    · cases ht
    · next item node hi =>
      cases ht
      exact program_exchange h hi
    · next node prev hi =>
      simp only [State.link, Option.map_eq_some_iff] at ht
      obtain ⟨n, -, rfl⟩ := ht
      exact ⟨program_setProducer h (by rw [hi]; rfl), h.calls⟩
    · next hi =>
      cases ht
      exact ⟨program_setProducer h (by rw [hi]; rfl), h.calls⟩
  | consumer =>
    have hsame : t.exchanged = s.exchanged ∧ t.producers = s.producers ∧
        t.admitted = s.admitted ∧ t.calls = s.calls := by
      simp only [State.step, State.stepConsumer] at ht
      split at ht
      · cases ht
        exact ⟨rfl, rfl, rfl, rfl⟩
      · obtain ⟨n, -, rfl⟩ := Option.map_eq_some_iff.mp ht
        split <;> exact ⟨rfl, rfl, rfl, rfl⟩
      · obtain ⟨n, -, rfl⟩ := Option.map_eq_some_iff.mp ht
        exact ⟨rfl, rfl, rfl, rfl⟩
      · cases ht
        exact ⟨rfl, rfl, rfl, rfl⟩
      · cases ht
        exact ⟨rfl, rfl, rfl, rfl⟩
      · cases ht
        exact ⟨rfl, rfl, rfl, rfl⟩
    obtain ⟨hex, hprod, hadm, hcalls⟩ := hsame
    refine ⟨fun i ↦ ?_, fun i ↦ ?_⟩
    · rw [hex, hprod, hadm]
      exact h.admitted i
    · rw [hadm, hcalls]
      exact h.calls i

/-- Program order holds in every reachable state. -/
theorem State.Program.of_reachable {capacity dummy : Nat} {s : State ι α}
    (h : (threads ι α capacity dummy).Reachable s) : s.Program :=
  Machine.Reachable.invariant ⟨fun _ ↦ rfl, fun _ ↦ List.Sublist.refl _⟩
    (fun _ _ _ hp hs ↦ hp.step hs) h

/-- The values popped from one producer are a first part of its admitted pushes. -/
theorem State.Program.poppedFrom_prefix {s : State ι α} (h : s.Program) (i : ι) :
    s.poppedFrom i <+: s.admitted i := by
  rw [← h.admitted i]
  refine List.IsPrefix.trans ?_ (List.prefix_append _ _)
  exact ((List.take_prefix _ _).filter _).map _

end Program

/-- The queue loses, duplicates and reorders nothing. In every reachable state the values
popped are a prefix of the values in the order of their exchanges; once no push is between
its exchange and its link, the consumer by itself returns exactly the remaining values in
that order and then finds the queue empty; and the values popped from one producer are a
prefix of its admitted pushes in program order. -/
theorem threads_fifo [DecidableEq ι] (capacity dummy : Nat) (s : State ι α)
    (h : (threads ι α capacity dummy).Reachable s) :
    s.popped <+: s.values ∧
    ((∀ i node prev, s.producers i ≠ .link node prev) →
      ∃ n t, (threads ι α capacity dummy).run s (List.replicate n .consumer) = some t ∧
        t.consumer = .idle ∧
        t.returns = s.returns ++ (s.values.drop s.popped.length).map some ++ [none]) ∧
    ∀ i, s.poppedFrom i <+: s.admitted i ∧ (s.admitted i).Sublist (s.calls i) := by
  obtain ⟨cells, hi⟩ := State.Inv.of_reachable h
  have hp := State.Program.of_reachable h
  obtain ⟨rest, hvalues, -, -⟩ := hi.values_eq
  refine ⟨⟨_, hvalues.symm⟩, ?_, ?_⟩
  · intro hlinked
    obtain ⟨t, ht, hidle, -, hret⟩ := drain capacity dummy hi hlinked
    exact ⟨_, t, ht, hidle, hret⟩
  · intro i
    exact ⟨hp.poppedFrom_prefix i, hp.calls i⟩

/-- Two producers exchange before either links; the second one links first, and still the
consumer gets the first one's value first. -/
theorem threads_fifo_two_producers : ∃ s : State Bool Nat,
    (threads Bool Nat 65536 0).Reachable s ∧ s.popped = [some 10] ∧
    s.values = [some 10, some 20] ∧ s.popped <+: s.values ∧
    ∃ n t, (threads Bool Nat 65536 0).run s (List.replicate n .consumer) = some t ∧
      t.returns = [some (some 10), some (some 20), none] := by
  let m := threads Bool Nat 65536 0
  have hrun : (m.run m.start
      (List.flatten [[.callPush true 10, .callPush false 20, .alloc false 7, .alloc true 3,
        .producer true, .producer false, .producer false, .producer true],
        List.replicate 6 .consumer])).map
      (fun s ↦ (s.returns, s.values, s.producers true, s.producers false)) =
      some ([some (some 10)], [some 10, some 20], .fetchAdd, .fetchAdd) := by
    decide +kernel
  obtain ⟨s, hrun, hs⟩ := Option.map_eq_some_iff.mp hrun
  simp only [Prod.mk.injEq] at hs
  obtain ⟨hret, hvalues, htrue, hfalse⟩ := hs
  have hreach := Machine.Reachable.run .start hrun
  have hpopped : s.popped = [some 10] := by rw [State.popped, hret]; rfl
  obtain ⟨hpre, hdrain, -⟩ := threads_fifo 65536 0 s hreach
  have hlinked : ∀ i node prev, s.producers i ≠ .link node prev := by
    intro i node prev
    cases i with
    | true => simp [htrue]
    | false => simp [hfalse]
  obtain ⟨n, t, ht, -, htret⟩ := hdrain hlinked
  refine ⟨s, hreach, hpopped, hvalues, hpre, n, t, ht, ?_⟩
  rw [htret, hret, hvalues, hpopped]
  rfl

end EventStreamCore.Queues.MpscQueue
