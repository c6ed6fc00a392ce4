import EventStreamCore.Queues.Mpsc
import Mathlib.Data.Finset.Card

/-!
# The approximate size of the queue

`size_` of `mpsc.hpp` is incremented after a node is linked and decremented after it is
unlinked, by different threads. It undercounts the list as long as no decrement comes
before the increment of the same item; the decrement of a zero counter wraps to the
largest value, and `push` then reports a full queue.
-/

namespace EventStreamCore.Queues.MpscQueue
open EventStreamCore.Lib

universe u v

variable {ι : Type v} {α : Type u}

/-- Whether the consumer is about to decrement `size_`. -/
def ConsumerPc.decrements : ConsumerPc α → Bool
  | .fetchSub _ => true
  | _ => false

/-- Whether the consumer has moved `head_` and not yet decremented `size_`. -/
def ConsumerPc.owesDecrement : ConsumerPc α → Bool
  | .delete _ _ => true
  | .fetchSub _ => true
  | _ => false

/-- The condition on a step: `size_` is not decremented while it is zero. -/
def NoUnderflow (s : State ι α) : Label ι α → Prop
  | .consumer => s.consumer.decrements → s.size ≠ 0
  | _ => True

instance (s : State ι α) (l : Label ι α) : Decidable (NoUnderflow s l) :=
  match l with
  | .consumer => inferInstanceAs (Decidable (s.consumer.decrements → s.size ≠ 0))
  | .callPush _ _ | .alloc _ _ | .producer _ => isTrue trivial

/-- The counter never exceeds the increments less the decrements, every increment follows
a link, and at most one store to `head_` is without its decrement; so every push was
rejected with at least `capacity - 1` items in the list. -/
structure State.Counted (capacity : Nat) (s : State ι α) : Prop where
  links : ∃ pending : Finset ι, (∀ i, i ∈ pending ↔ s.producers i = .fetchAdd) ∧
    s.linked = s.added + pending.card
  size : s.size.toNat + s.subtracted ≤ s.added
  advanced : s.advanced = s.subtracted + s.consumer.owesDecrement.toNat
  rejected : ∀ held ∈ s.rejected, capacity - 1 ≤ held

section

variable [DecidableEq ι] {capacity : Nat} {s : State ι α} {i : ι}

private theorem pending_setProducer {pc : ProducerPc α} {pending : Finset ι}
    (h : ∀ j, j ∈ pending ↔ s.producers j = .fetchAdd) (hi : s.producers i ≠ .fetchAdd)
    (hpc : pc ≠ .fetchAdd) (j : ι) :
    j ∈ pending ↔ (s.setProducer i pc).producers j = .fetchAdd := by
  rw [h]
  by_cases hj : j = i
  · rw [hj, s.setProducer_self]
    exact iff_of_false hi hpc
  · rw [s.setProducer_of_ne hj]

private theorem counted_callPush (item : α) (h : s.Counted capacity)
    (hi : s.producers i = .idle) : (s.callPush capacity i item).Counted capacity := by
  obtain ⟨pending, hpending, hlinked⟩ := h.links
  unfold State.callPush
  split
  · next hfull =>
    refine ⟨h.links, h.size, h.advanced, ?_⟩
    intro held hm
    rcases List.mem_append.mp hm with hm | hm
    · exact h.rejected held hm
    · -- `size_` is at most the links less the decrements, and at most one store to
      -- `head_` has no decrement yet.
      rw [List.mem_singleton.mp hm]
      have hsize := h.size
      have hadv := h.advanced
      have hone := Bool.toNat_le s.consumer.owesDecrement
      omega
  · refine ⟨⟨pending, ?_, hlinked⟩, h.size, h.advanced, h.rejected⟩
    exact pending_setProducer hpending (by rw [hi]; exact nofun) nofun

private theorem counted_link {node prev : Nat} {t : State ι α} (h : s.Counted capacity)
    (hi : s.producers i = .link node prev) (ht : s.link i node prev = some t) :
    t.Counted capacity := by
  obtain ⟨pending, hpending, hlinked⟩ := h.links
  obtain ⟨n, -, rfl⟩ := Option.map_eq_some_iff.mp ht
  have hnot : i ∉ pending := by
    rw [hpending, hi]
    exact nofun
  refine ⟨⟨insert i pending, ?_, ?_⟩, h.size, h.advanced, h.rejected⟩
  · intro j
    change j ∈ insert i pending ↔ (s.setProducer i .fetchAdd).producers j = .fetchAdd
    rw [Finset.mem_insert]
    by_cases hj : j = i
    · rw [hj, s.setProducer_self]
      exact iff_of_true (.inl rfl) rfl
    · rw [s.setProducer_of_ne hj, ← hpending]
      exact or_iff_right hj
  · change s.linked + 1 = s.added + _
    rw [Finset.card_insert_of_notMem hnot, hlinked]
    rfl

private theorem counted_fetchAdd (h : s.Counted capacity) (hi : s.producers i = .fetchAdd) :
    (s.fetchAdd i).Counted capacity := by
  obtain ⟨pending, hpending, hlinked⟩ := h.links
  have hmem : i ∈ pending := (hpending i).mpr hi
  refine ⟨⟨pending.erase i, ?_, ?_⟩, ?_, h.advanced, h.rejected⟩
  · intro j
    change j ∈ pending.erase i ↔ (s.setProducer i .idle).producers j = .fetchAdd
    rw [Finset.mem_erase]
    by_cases hj : j = i
    · rw [hj, s.setProducer_self]
      exact iff_of_false (fun h ↦ h.1 rfl) nofun
    · rw [s.setProducer_of_ne hj, ← hpending]
      exact and_iff_right hj
  · change s.linked = s.added + 1 + _
    have hpos := Finset.card_pos.mpr ⟨i, hmem⟩
    rw [Finset.card_erase_of_mem hmem]
    omega
  · change (s.size + 1).toNat + s.subtracted ≤ s.added + 1
    have hwrap : (s.size + 1).toNat ≤ s.size.toNat + 1 := by
      rw [UInt64.toNat_add]
      exact Nat.mod_le _ _
    have hsize := h.size
    omega

omit [DecidableEq ι] in
private theorem counted_consumer {t : State ι α} (h : s.Counted capacity)
    (hg : s.consumer.decrements → s.size ≠ 0) (ht : s.stepConsumer = some t) :
    t.Counted capacity := by
  have hadv := h.advanced
  cases hc : s.consumer with
  | idle =>
    simp only [State.stepConsumer, hc] at ht hadv
    cases ht
    exact ⟨h.links, h.size, hadv, h.rejected⟩
  | loadNext head =>
    simp only [State.stepConsumer, hc] at ht hadv
    obtain ⟨⟨d, next⟩, -, rfl⟩ := Option.map_eq_some_iff.mp ht
    cases next with
    | none => exact ⟨h.links, h.size, hadv, h.rejected⟩
    | some next => exact ⟨h.links, h.size, hadv, h.rejected⟩
  | moveData head next =>
    simp only [State.stepConsumer, hc] at ht hadv
    obtain ⟨n, -, rfl⟩ := Option.map_eq_some_iff.mp ht
    exact ⟨h.links, h.size, hadv, h.rejected⟩
  | storeHead head next item =>
    simp only [State.stepConsumer, hc] at ht hadv
    cases ht
    exact ⟨h.links, h.size, congrArg (· + 1) hadv, h.rejected⟩
  | delete head item =>
    simp only [State.stepConsumer, hc] at ht hadv
    cases ht
    exact ⟨h.links, h.size, hadv, h.rejected⟩
  | fetchSub item =>
    rw [hc] at hg
    simp only [State.stepConsumer, hc] at ht hadv
    cases ht
    refine ⟨h.links, ?_, hadv, h.rejected⟩
    change (s.size - 1).toNat + (s.subtracted + 1) ≤ s.added
    have hne : s.size.toNat ≠ 0 := fun hz ↦ hg rfl (UInt64.toNat.inj hz)
    have hpos : 1 ≤ s.size := by
      rw [UInt64.le_iff_toNat_le, UInt64.toNat_one]
      omega
    have hsize := h.size
    rw [UInt64.toNat_sub_of_le _ _ hpos, UInt64.toNat_one]
    omega

/-- Every step that does not decrement a zero counter keeps the count. -/
theorem State.Counted.step {t : State ι α} {l : Label ι α} (h : s.Counted capacity)
    (hg : NoUnderflow s l) (ht : s.step capacity l = some t) : t.Counted capacity := by
  obtain ⟨pending, hpending, hlinked⟩ := h.links
  cases l with
  | callPush i item =>
    simp only [State.step] at ht
    split at ht
    · next hi =>
      cases ht
      exact counted_callPush item h hi
    · cases ht
  | alloc i node =>
    simp only [State.step] at ht
    split at ht
    · next item hi _ =>
      cases ht
      refine ⟨⟨pending, ?_, hlinked⟩, h.size, h.advanced, h.rejected⟩
      exact pending_setProducer hpending (by rw [hi]; exact nofun) nofun
    · cases ht
  | producer i =>
    simp only [State.step, State.stepProducer] at ht
    split at ht
    · cases ht
    · cases ht
    · next item node hi =>
      cases ht
      refine ⟨⟨pending, ?_, hlinked⟩, h.size, h.advanced, h.rejected⟩
      exact pending_setProducer hpending (by rw [hi]; exact nofun) nofun
    · next node prev hi => exact counted_link h hi ht
    · next hi =>
      cases ht
      exact counted_fetchAdd h hi
  | consumer => exact counted_consumer h hg ht

end

/-- In every run in which `size_` is never decremented while it is zero, a push returns
false only if at least `capacity - 1` items were linked and not yet popped when it read
`size_`. -/
theorem rejected_only_near_capacity [DecidableEq ι] (capacity dummy : Nat) (s : State ι α)
    (h : (threads ι α capacity dummy).ReachableWith NoUnderflow s) :
    ∀ held ∈ s.rejected, capacity - 1 ≤ held := by
  have hstart : (threads ι α capacity dummy).start.Counted capacity :=
    ⟨⟨∅, fun _ ↦ iff_of_false (Finset.notMem_empty _) nofun, rfl⟩, Nat.le_refl 0, rfl, nofun⟩
  have hi : s.Counted capacity :=
    Machine.ReachableWith.invariant hstart (fun _ _ _ hi hg hs ↦ hi.step hg hs) h
  exact hi.rejected

/-- A queue of capacity two rejects the third push, with two items in the list. -/
theorem rejected_at_capacity_two : ∃ s : State Unit Char,
    (threads Unit Char 2 0).ReachableWith NoUnderflow s ∧ s.rejected = [2] ∧
    ∀ held ∈ s.rejected, 2 - 1 ≤ held := by
  let m := threads Unit Char 2 0
  have hrun : (m.runWith NoUnderflow m.start
      [.callPush () 'a', .alloc () 1, .producer (), .producer (), .producer (),
        .callPush () 'b', .alloc () 2, .producer (), .producer (), .producer (),
        .callPush () 'c']).map State.rejected = some [2] := by
    decide +kernel
  obtain ⟨s, hrun, hs⟩ := Option.map_eq_some_iff.mp hrun
  have hreach := Machine.ReachableWith.run .start hrun
  exact ⟨s, hreach, hs, rejected_only_near_capacity 2 0 s hreach⟩

/-- A pop that decrements `size_` before the push it answers has incremented it makes the
next push fail on an empty queue of capacity 65536. -/
theorem rejected_when_empty : ∃ s : State Bool Char,
    (threads Bool Char 65536 0).Reachable s ∧ s.rejected = [0] ∧
    ¬ ∀ held ∈ s.rejected, 65536 - 1 ≤ held := by
  let m := threads Bool Char 65536 0
  have hrun : (m.run m.start
      (List.flatten [[.callPush true 'a', .alloc true 1, .producer true, .producer true],
        List.replicate 6 .consumer, [.callPush false 'b']])).map State.rejected = some [0] := by
    decide +kernel
  obtain ⟨s, hrun, hs⟩ := Option.map_eq_some_iff.mp hrun
  refine ⟨s, Machine.Reachable.run .start hrun, hs, ?_⟩
  rw [hs]
  decide

end EventStreamCore.Queues.MpscQueue
