import EventStreamCore.Queues.Mpsc
import Mathlib.Algebra.Order.BigOperators.Group.Finset
import Mathlib.Data.Fintype.BigOperators

/-!
# How far the queue exceeds its capacity

`push`, `include/eventstream/core/queues/mpsc.hpp:36–56`, reads `size_` before it inserts and
increments it afterwards, so several producers can pass the check on the same reading. A producer
is in flight from its check to its increment, and there is one less other producer than there
are producers.
-/

namespace EventStreamCore.Queues.MpscQueue
open EventStreamCore.Lib

universe u v

variable {ι : Type v} {α : Type u}

/-- One for a producer that has passed the size check and not yet incremented `size_`. -/
def ProducerPc.inFlight : ProducerPc α → Nat
  | .idle => 0
  | .alloc _ | .exchange _ _ | .link _ _ | .fetchAdd => 1

/-- One for a producer that has exchanged its item and not yet incremented `size_`. -/
def ProducerPc.uncounted : ProducerPc α → Nat
  | .idle | .alloc _ | .exchange _ _ => 0
  | .link _ _ | .fetchAdd => 1

theorem ProducerPc.uncounted_le_inFlight (pc : ProducerPc α) : pc.uncounted ≤ pc.inFlight := by
  cases pc <;> simp [uncounted, inFlight]

theorem ProducerPc.inFlight_le_one (pc : ProducerPc α) : pc.inFlight ≤ 1 := by
  cases pc <;> simp [inFlight]

namespace State

/-- Of the pops only some return an item. -/
theorem length_popped_le (s : State ι α) : s.popped.length ≤ s.returns.length :=
  List.length_filterMap_le _ _

variable [Fintype ι]

/-- The producers in flight. -/
def inFlight (s : State ι α) : Nat := ∑ i, (s.producers i).inFlight

/-- The producers whose item is exchanged and not yet counted. -/
def uncounted (s : State ι α) : Nat := ∑ i, (s.producers i).uncounted

/-- The calls of `push` and the finished calls of `pop`. -/
def operations (s : State ι α) : Nat := ∑ i, (s.calls i).length + s.returns.length

/-- The counter is the increments less the decrements, modulo its range; every exchange is
counted or still to be counted by its producer; and as long as the increments and decrements
fit the counter, the items counted or in flight exceed those popped by no more than the
capacity and one for each other producer. -/
structure Admits (capacity : Nat) (s : State ι α) : Prop where
  size : s.size = UInt64.ofNat s.added - UInt64.ofNat s.subtracted
  exchanged : s.exchanged.length = s.added + s.uncounted
  called : s.added + s.inFlight ≤ ∑ i, (s.calls i).length
  popped : s.popped.length = s.subtracted
  bound : s.operations < 2 ^ 63 →
    s.added + s.inFlight ≤ s.subtracted + (capacity + Fintype.card ι - 1)

/-- There are at most as many producers in flight as there are producers. -/
theorem inFlight_le (s : State ι α) : s.inFlight ≤ Fintype.card ι := by
  calc s.inFlight ≤ ∑ _i : ι, 1 :=
        Finset.sum_le_sum fun i _ ↦ (s.producers i).inFlight_le_one
    _ = Fintype.card ι := (Finset.card_eq_sum_ones Finset.univ).symm

theorem uncounted_le_inFlight (s : State ι α) : s.uncounted ≤ s.inFlight :=
  Finset.sum_le_sum fun i _ ↦ (s.producers i).uncounted_le_inFlight

variable [DecidableEq ι]

/-- Replacing one summand. -/
private theorem sum_update {β : Type*} (w : β → Nat) (f : ι → β) (i : ι) (b : β) :
    ∑ j, w (Function.update f i b j) + w (f i) = ∑ j, w (f j) + w b := by
  have hnew := Finset.add_sum_erase Finset.univ (fun j ↦ w (Function.update f i b j))
    (Finset.mem_univ i)
  have hold := Finset.add_sum_erase Finset.univ (fun j ↦ w (f j)) (Finset.mem_univ i)
  have hrest : ∑ j ∈ Finset.univ.erase i, w (Function.update f i b j)
      = ∑ j ∈ Finset.univ.erase i, w (f j) := by
    apply Finset.sum_congr rfl
    intro j hj
    rw [Function.update_of_ne (Finset.ne_of_mem_erase hj)]
  rw [← hnew, ← hold, hrest, Function.update_self]
  omega

/-- A producer that moves changes its own part of the sums only. -/
theorem inFlight_setProducer (s : State ι α) (i : ι) (pc : ProducerPc α) :
    (s.setProducer i pc).inFlight + (s.producers i).inFlight = s.inFlight + pc.inFlight :=
  sum_update ProducerPc.inFlight s.producers i pc

theorem uncounted_setProducer (s : State ι α) (i : ι) (pc : ProducerPc α) :
    (s.setProducer i pc).uncounted + (s.producers i).uncounted = s.uncounted + pc.uncounted :=
  sum_update ProducerPc.uncounted s.producers i pc

/-- One more call of one producer. -/
theorem sum_length_calls (s : State ι α) (i : ι) (item : α) :
    ∑ j, (Function.update s.calls i (s.calls i ++ [item]) j).length
      = ∑ j, (s.calls j).length + 1 := by
  have h := sum_update List.length s.calls i (s.calls i ++ [item])
  rw [List.length_append, List.length_singleton] at h
  omega

namespace Admits

variable {capacity : Nat} {s : State ι α} {i : ι}

omit [DecidableEq ι] in
/-- A reading below half the range is the exact difference. -/
theorem size_add_subtracted (h : s.Admits capacity) (hops : s.operations < 2 ^ 63)
    (hsmall : s.size.toNat < 2 ^ 63) : s.size.toNat + s.subtracted = s.added := by
  have hcalled := h.called
  have hpopped := h.popped ▸ s.length_popped_le
  have hsize := congrArg UInt64.toNat h.size
  rw [UInt64.toNat_sub, UInt64.toNat_ofNat', UInt64.toNat_ofNat'] at hsize
  unfold operations at hops
  omega

/-- The size check lets a producer into flight only when there is room for it. -/
private theorem callPush (h : s.Admits capacity) (hcap : capacity < 2 ^ 63) (item : α)
    (hi : s.producers i = .idle) : (s.callPush capacity i item).Admits capacity := by
  have hcalls := s.sum_length_calls i item
  unfold State.callPush
  split
  · refine ⟨h.size, h.exchanged, ?_, h.popped, fun hops ↦ h.bound ?_⟩
    · exact Nat.le_trans h.called (hcalls ▸ Nat.le_succ _)
    · unfold operations at hops ⊢
      simp only at hops
      omega
  · next hroom =>
    have hfly := s.inFlight_setProducer i (.alloc item)
    have hun := s.uncounted_setProducer i (.alloc item)
    rw [hi] at hfly hun
    simp only [ProducerPc.inFlight, ProducerPc.uncounted, Nat.add_zero] at hfly hun
    have hle := (s.setProducer i (.alloc item)).inFlight_le
    refine ⟨h.size, ?_, ?_, h.popped, fun hops ↦ ?_⟩
    · exact h.exchanged.trans (congrArg (s.added + ·) hun.symm)
    · change s.added + (s.setProducer i (.alloc item)).inFlight ≤ _
      have := h.called
      rw [hcalls, hfly]
      omega
    · change s.added + (s.setProducer i (.alloc item)).inFlight
        ≤ s.subtracted + (capacity + Fintype.card ι - 1)
      have hbefore : s.operations < 2 ^ 63 := by
        change ∑ j, (Function.update s.calls i _ j).length + s.returns.length < 2 ^ 63 at hops
        unfold operations
        omega
      have hexact := h.size_add_subtracted hbefore (by omega)
      omega

/-- A step of a producer in flight that stays in flight. -/
private theorem stays (h : s.Admits capacity) (pc : ProducerPc α)
    (hi : (s.producers i).inFlight = pc.inFlight) :
    s.added + (s.setProducer i pc).inFlight ≤ ∑ j, (s.calls j).length ∧
    (s.operations < 2 ^ 63 → s.added + (s.setProducer i pc).inFlight ≤
      s.subtracted + (capacity + Fintype.card ι - 1)) := by
  have hfly := s.inFlight_setProducer i pc
  have hsame : (s.setProducer i pc).inFlight = s.inFlight := by omega
  rw [hsame]
  exact ⟨h.called, h.bound⟩

private theorem producer {t : State ι α} (h : s.Admits capacity)
    (ht : s.stepProducer i = some t) : t.Admits capacity := by
  unfold State.stepProducer at ht
  split at ht
  · cases ht
  · cases ht
  · next item node hi =>
    cases ht
    have hun := s.uncounted_setProducer i (.link node s.tail)
    rw [hi] at hun
    simp only [ProducerPc.uncounted, Nat.add_zero] at hun
    obtain ⟨hcalled, hbound⟩ := h.stays (.link node s.tail) (by rw [hi]; rfl)
    refine ⟨h.size, ?_, hcalled, h.popped, hbound⟩
    change (s.exchanged ++ [(i, item)]).length = s.added + (s.setProducer i _).uncounted
    rw [List.length_append, h.exchanged, hun]
    rfl
  · next node prev hi =>
    obtain ⟨n, -, rfl⟩ := Option.map_eq_some_iff.mp ht
    have hun := s.uncounted_setProducer i .fetchAdd
    rw [hi] at hun
    simp only [ProducerPc.uncounted, Nat.add_right_cancel_iff] at hun
    obtain ⟨hcalled, hbound⟩ := h.stays .fetchAdd (by rw [hi]; rfl)
    exact ⟨h.size, h.exchanged.trans (congrArg (s.added + ·) hun.symm), hcalled, h.popped, hbound⟩
  · next hi =>
    cases ht
    have hfly := s.inFlight_setProducer i .idle
    have hun := s.uncounted_setProducer i .idle
    rw [hi] at hfly hun
    simp only [ProducerPc.inFlight, ProducerPc.uncounted, Nat.add_zero] at hfly hun
    have hcalled := h.called
    have hsum : s.added + 1 + (s.setProducer i .idle).inFlight = s.added + s.inFlight := by omega
    refine ⟨?_, ?_, ?_, h.popped, fun hops ↦ ?_⟩
    · change s.size + 1 = UInt64.ofNat (s.added + 1) - UInt64.ofNat s.subtracted
      rw [h.size, UInt64.ofNat_add, UInt64.sub_eq_add_neg, UInt64.sub_eq_add_neg,
        UInt64.add_assoc, UInt64.add_comm (-_), ← UInt64.add_assoc]
      rfl
    · change s.exchanged.length = s.added + 1 + (s.setProducer i .idle).uncounted
      rw [h.exchanged]
      omega
    · exact hsum.le.trans hcalled
    · exact hsum.le.trans (h.bound hops)

omit [DecidableEq ι] in
private theorem consumer {t : State ι α} (h : s.Admits capacity) (ht : s.stepConsumer = some t) :
    t.Admits capacity := by
  unfold State.stepConsumer at ht
  split at ht
  · cases ht
    exact ⟨h.size, h.exchanged, h.called, h.popped, h.bound⟩
  · obtain ⟨⟨d, next⟩, -, rfl⟩ := Option.map_eq_some_iff.mp ht
    cases next with
    | none =>
      refine ⟨h.size, h.exchanged, h.called, ?_, fun hops ↦ h.bound ?_⟩
      · change ((s.returns ++ [none]).filterMap id).length = s.subtracted
        rw [List.filterMap_append]
        exact (congrArg List.length (List.append_nil _)).trans h.popped
      · change _ + (s.returns ++ [none]).length < 2 ^ 63 at hops
        rw [List.length_append] at hops
        exact Nat.lt_of_le_of_lt (Nat.add_le_add_left (Nat.le_add_right _ _) _) hops
    | some next => exact ⟨h.size, h.exchanged, h.called, h.popped, h.bound⟩
  · obtain ⟨n, -, rfl⟩ := Option.map_eq_some_iff.mp ht
    exact ⟨h.size, h.exchanged, h.called, h.popped, h.bound⟩
  · cases ht
    exact ⟨h.size, h.exchanged, h.called, h.popped, h.bound⟩
  · cases ht
    exact ⟨h.size, h.exchanged, h.called, h.popped, h.bound⟩
  · next item hc =>
    cases ht
    refine ⟨?_, h.exchanged, h.called, ?_, fun hops ↦ ?_⟩
    · change s.size - 1 = UInt64.ofNat s.added - UInt64.ofNat (s.subtracted + 1)
      rw [h.size, UInt64.ofNat_add, UInt64.sub_eq_add_neg, UInt64.sub_eq_add_neg,
        UInt64.sub_eq_add_neg, UInt64.neg_add, UInt64.sub_eq_add_neg, UInt64.add_assoc]
      rfl
    · change ((s.returns ++ [some item]).filterMap id).length = s.subtracted + 1
      rw [List.filterMap_append, List.length_append]
      exact congrArg (· + 1) h.popped
    · change _ + (s.returns ++ [some item]).length < 2 ^ 63 at hops
      rw [List.length_append] at hops
      have hbound := h.bound (Nat.lt_of_le_of_lt
        (Nat.add_le_add_left (Nat.le_add_right _ _) _) hops)
      change s.added + s.inFlight ≤ s.subtracted + 1 + _
      omega

/-- Every step keeps the bound. -/
theorem step {t : State ι α} {l : Label ι α} (h : s.Admits capacity) (hcap : capacity < 2 ^ 63)
    (ht : s.step capacity l = some t) : t.Admits capacity := by
  cases l with
  | callPush i item =>
    simp only [State.step] at ht
    split at ht
    · next hi =>
      cases ht
      exact h.callPush hcap item hi
    · cases ht
  | alloc i node =>
    simp only [State.step] at ht
    split at ht
    · next item hi _ =>
      cases ht
      have hun := s.uncounted_setProducer i (.exchange item node)
      rw [hi] at hun
      obtain ⟨hcalled, hbound⟩ := h.stays (.exchange item node) (by rw [hi]; rfl)
      exact ⟨h.size, h.exchanged.trans (congrArg (s.added + ·) hun.symm), hcalled, h.popped, hbound⟩
    · cases ht
  | producer i => exact h.producer ht
  | consumer => exact h.consumer ht

omit [DecidableEq ι] in
/-- A new queue. -/
theorem initial (capacity dummy : Nat) :
    (State.initial dummy : State ι α).Admits capacity where
  size := (UInt64.sub_self 0).symm
  exchanged := by
    change 0 = 0 + ∑ _i : ι, 0
    rw [Finset.sum_const_zero, Nat.add_zero]
  called := by
    change 0 + ∑ _i : ι, 0 ≤ ∑ _i : ι, 0
    rw [Nat.zero_add]
  popped := rfl
  bound _ := by
    change 0 + ∑ _i : ι, 0 ≤ _
    rw [Finset.sum_const_zero]
    exact Nat.zero_le _

/-- The counter admits no more than the capacity in every run. -/
theorem of_reachable {capacity dummy : Nat} (hcap : capacity < 2 ^ 63)
    (h : (threads ι α capacity dummy).Reachable s) : s.Admits capacity :=
  h.invariant (.initial capacity dummy) fun _ _ _ hi hs ↦ hi.step hcap hs

omit [DecidableEq ι] in
/-- The items exchanged and not yet popped are within the capacity and one for each producer but
one. -/
theorem length_exchanged_le (h : s.Admits capacity) (hops : s.operations < 2 ^ 63) :
    s.exchanged.length ≤ s.popped.length + (capacity + Fintype.card ι - 1) :=
  calc s.exchanged.length = s.added + s.uncounted := h.exchanged
    _ ≤ s.added + s.inFlight := Nat.add_le_add_left s.uncounted_le_inFlight _
    _ ≤ s.subtracted + (capacity + Fintype.card ι - 1) := h.bound hops
    _ = s.popped.length + (capacity + Fintype.card ι - 1) := by rw [h.popped]

end Admits
end State

variable [Fintype ι] [DecidableEq ι]

/-- With fewer than `2^63` operations, the items exchanged into the queue and not yet popped are
never more than the capacity and one for each producer but one. -/
theorem exchanged_le_capacity (capacity dummy : Nat) (hcap : capacity < 2 ^ 63) (s : State ι α)
    (h : (threads ι α capacity dummy).Reachable s) (hops : s.operations < 2 ^ 63) :
    s.exchanged.length ≤ s.popped.length + (capacity + Fintype.card ι - 1) :=
  (State.Admits.of_reachable hcap h).length_exchanged_le hops

/-- Two producers that check before either inserts fill a queue of capacity one with two items,
which is the bound. -/
theorem exchanged_le_capacity_two : ∃ s : State Bool Char,
    s.exchanged.length = 2 ∧ s.popped.length + (1 + Fintype.card Bool - 1) = 2 ∧
    s.exchanged.length ≤ s.popped.length + (1 + Fintype.card Bool - 1) := by
  let m := threads Bool Char 1 0
  have hrun : (m.run m.start [.callPush true 'a', .callPush false 'b', .alloc true 1,
      .alloc false 2, .producer true, .producer false]).map (fun s ↦
        (s.exchanged.length, s.popped.length, (s.calls true).length, (s.calls false).length,
          s.returns.length)) = some (2, 0, 1, 1, 0) := by
    decide +kernel
  obtain ⟨s, hrun, hs⟩ := Option.map_eq_some_iff.mp hrun
  simp only [Prod.mk.injEq] at hs
  obtain ⟨hex, hpop, htrue, hfalse, hret⟩ := hs
  have hops : s.operations < 2 ^ 63 := by
    rw [State.operations, Fintype.sum_bool, htrue, hfalse, hret]
    decide
  refine ⟨s, hex, by rw [hpop]; rfl, ?_⟩
  exact exchanged_le_capacity 1 0 (by decide) s (Machine.Reachable.run .start hrun) hops

end EventStreamCore.Queues.MpscQueue
