import Mathlib.Algebra.Ring.Nat
import Mathlib.Data.List.Nodup
import Mathlib.Data.List.Range
import Mathlib.Logic.Function.Basic

/-!
# The event pool

`EventPool`, `include/eventstream/core/memory/event_pool.hpp:20–206`, one call at a time. Objects
live in a heap of addresses; the allocator may return any address that is not in use, freed ones
included, and an access to an address not in use has no successor state. The pool finds the slot
of an event by a field of the event, if its type has one, else by a map from addresses.
-/

namespace EventStreamCore.Memory

universe u

/-- `SIZE_MAX`. -/
def sizeMax : Nat := 2 ^ 64 - 1

/-- A `Capacity`, a positive `size_t`. -/
structure PoolCapacity where
  val : Nat
  pos : 0 < val
  le : val ≤ sizeMax

/-- The field `pool_index_` of an event type whose new events are `fresh`. -/
structure PoolIndexField {ε : Type u} (fresh : ε) where
  get : ε → Nat
  set : Nat → ε → ε
  get_set : ∀ i ≤ sizeMax, ∀ event, get (set i event) = i
  get_fresh : get fresh = sizeMax

/-- What the pool needs of `EventType`; `kHasPoolIndex` tells whether there is a field. -/
structure EventType (ε : Type u) where
  fresh : ε
  poolIndex : Option (PoolIndexField fresh)

namespace EventType

variable {ε : Type u} (et : EventType ε)

/-- The event made for slot `i`. -/
def forSlot (i : Nat) : ε :=
  match et.poolIndex with
  | some field => field.set i et.fresh
  | none => et.fresh

/-- The content of the field, if there is one. -/
def index (event : ε) : Option Nat := et.poolIndex.map fun field ↦ field.get event

end EventType

/-- The members of an `EventPool` and the objects in use. -/
structure EventPool (ε : Type u) where
  heap : Nat → Option ε
  pool : Nat → Option Nat
  ptrToIndex : Nat → Option Nat
  freeList : Nat → Nat
  availableCount : Nat

namespace EventPool

variable {ε : Type u}

/-- The first `available_count_` entries of `free_list_`. -/
def freeSlots (s : EventPool ε) : List Nat := (List.range s.availableCount).map s.freeList

/-- One round of the loops of the constructor and of `reset`: the slot gets a new object, and
the one it owned before is deleted after that. -/
def refillSlot (et : EventType ε) (s : EventPool ε) (i node : Nat) : Option (EventPool ε) :=
  match s.heap node with
  | some _ => none
  | none =>
    let heap := Function.update s.heap node (some (et.forSlot i))
    some { s with
      heap := match s.pool i with
        | none => heap
        | some old => Function.update heap old none
      pool := Function.update s.pool i (some node)
      freeList := Function.update s.freeList i i
      ptrToIndex := match et.poolIndex with
        | some _ => s.ptrToIndex
        | none => Function.update s.ptrToIndex node (some i) }

/-- The loop from slot `i` on, with the addresses the allocator returns. -/
def refill (et : EventType ε) (s : EventPool ε) (i : Nat) : List Nat → Option (EventPool ε)
  | [] => some s
  | node :: nodes => (s.refillSlot et i node).bind fun s ↦ s.refill et (i + 1) nodes

/-- The constructor; `event_pool.hpp:69–85`. -/
def construct (C : PoolCapacity) (et : EventType ε) (nodes : List Nat) : Option (EventPool ε) :=
  refill et ⟨fun _ ↦ none, fun _ ↦ none, fun _ ↦ none, fun _ ↦ 0, C.val⟩ 0 nodes

/-- `acquire`, with the address of the event; `node` is where a fallback would be allocated. -/
def acquire (et : EventType ε) (s : EventPool ε) (node : Nat) : Option (EventPool ε × Nat) :=
  if s.availableCount = 0 then
    match s.heap node with
    | some _ => none
    | none => some ({ s with heap := Function.update s.heap node (some et.fresh) }, node)
  else
    let availableCount := s.availableCount - 1
    (s.pool (s.freeList availableCount)).map fun obj ↦ ({ s with availableCount }, obj)

/-- `delete obj`. -/
def delete (s : EventPool ε) (obj : Nat) : Option (EventPool ε) :=
  (s.heap obj).map fun _ ↦ { s with heap := Function.update s.heap obj none }

/-- What `release` takes for the slot of an object, if anything; `event_pool.hpp:132–152`. -/
def slotIndex (et : EventType ε) (s : EventPool ε) (obj : Nat) : Option (Option Nat) :=
  match et.poolIndex with
  | some field => (s.heap obj).map fun event ↦
      if field.get event = sizeMax then none else some (field.get event)
  | none => some (s.ptrToIndex obj)

/-- `release`; `event_pool.hpp:119–163`. -/
def release (C : PoolCapacity) (et : EventType ε) (s : EventPool ε) :
    Option Nat → Option (EventPool ε)
  | none => some s
  | some obj =>
    if s.availableCount ≥ C.val then s.delete obj
    else
      match s.slotIndex et obj with
      | none => none
      | some none => s.delete obj
      | some (some idx) =>
        if idx ≥ C.val then s.delete obj
        else some { s with
          freeList := Function.update s.freeList s.availableCount idx
          availableCount := s.availableCount + 1 }

/-- `reset`; `event_pool.hpp:193–206`. -/
def reset (C : PoolCapacity) (et : EventType ε) (s : EventPool ε) (nodes : List Nat) :
    Option (EventPool ε) :=
  refill et { s with availableCount := C.val } 0 nodes

end EventPool

namespace EventPool

variable {ε : Type u} {C : PoolCapacity} {et : EventType ε} {s t : EventPool ε}

/-! ### Small facts -/

/-- What an object's slot is taken for depends on the object and its key alone. -/
theorem slotIndex_congr {a : Nat} (hheap : t.heap a = s.heap a)
    (hptr : t.ptrToIndex a = s.ptrToIndex a) : t.slotIndex et a = s.slotIndex et a := by
  unfold slotIndex
  rw [hheap, hptr]

/-- A slot made available joins the free ones. -/
theorem freeSlots_push (s : EventPool ε) (idx : Nat) :
    freeSlots { s with
      freeList := Function.update s.freeList s.availableCount idx
      availableCount := s.availableCount + 1 } = s.freeSlots ++ [idx] := by
  simp only [freeSlots, List.range_succ, List.map_append, List.map_cons, List.map_nil,
    Function.update_self]
  congr 1
  apply List.map_congr_left
  intro n hn
  rw [Function.update_of_ne (Nat.ne_of_lt (List.mem_range.mp hn))]

/-- The last free slot and the others. -/
theorem freeSlots_pop (s : EventPool ε) (h : s.availableCount ≠ 0) :
    s.freeSlots = freeSlots { s with availableCount := s.availableCount - 1 }
      ++ [s.freeList (s.availableCount - 1)] := by
  obtain ⟨n, hn⟩ := Nat.exists_eq_succ_of_ne_zero h
  simp only [freeSlots, hn, List.range_succ, List.map_append, Nat.succ_eq_add_one,
    Nat.add_sub_cancel]
  rfl

/-! ### Filling the slots -/

/-- While nothing is handed out, the objects in use are those of the slots. -/
structure Owned (C : PoolCapacity) (s : EventPool ε) : Prop where
  count : s.availableCount = C.val
  slots_lt : ∀ i a, s.pool i = some a → i < C.val
  slots_inj : ∀ i j a, s.pool i = some a → s.pool j = some a → i = j
  heap_iff : ∀ a, (∃ e, s.heap a = some e) ↔ ∃ i, s.pool i = some a

/-- The loop of the constructor or of `reset` before slot `k`: the slots before it are done.
Without a field, slots are only filled in the constructor, where the ones from `k` on own
nothing yet. -/
structure Filling (C : PoolCapacity) (et : EventType ε) (k : Nat) (s : EventPool ε) : Prop
    extends Owned C s where
  filled : ∀ i < k, ∃ a, s.pool i = some a
  index : ∀ i < k, ∀ a, s.pool i = some a → s.slotIndex et a = some (some i)
  free : ∀ i < k, s.freeList i = i
  exact_keys : et.poolIndex = none → ∀ a i, s.ptrToIndex a = some i → s.pool i = some a
  unfilled : et.poolIndex = none → ∀ i, k ≤ i → s.pool i = none

/-- The new object of a slot is recognised. -/
private theorem slotIndex_new {k node : Nat} (hk : k < C.val) {heap : Nat → Option ε}
    {ptr : Nat → Option Nat} (hheap : heap node = some (et.forSlot k))
    (hptr : et.poolIndex = none → ptr node = some k) :
    slotIndex et { s with heap, ptrToIndex := ptr } node = some (some k) := by
  unfold slotIndex
  cases hf : et.poolIndex with
  | none => exact congrArg some (hptr hf)
  | some field =>
    have hle : k ≤ sizeMax := Nat.le_of_lt (Nat.lt_of_lt_of_le hk C.le)
    have hget : field.get (et.forSlot k) = k := by
      rw [EventType.forSlot, hf]
      exact field.get_set k hle et.fresh
    have hne : k ≠ sizeMax := Nat.ne_of_lt (Nat.lt_of_lt_of_le hk C.le)
    simp only [hheap, Option.map_some, hget, if_neg hne]

/-- What a round of the loop does. -/
structure Refilled (et : EventType ε) (s t : EventPool ε) (k node : Nat) : Prop where
  unused : s.heap node = none
  count : t.availableCount = s.availableCount
  pool : t.pool = Function.update s.pool k (some node)
  freeList : t.freeList = Function.update s.freeList k k
  heap_node : t.heap node = some (et.forSlot k)
  heap_old : ∀ old, s.pool k = some old → t.heap old = none
  heap_other : ∀ a, a ≠ node → s.pool k ≠ some a → t.heap a = s.heap a
  ptr_node : et.poolIndex = none → t.ptrToIndex node = some k
  ptr_other : ∀ a, a ≠ node → t.ptrToIndex a = s.ptrToIndex a

theorem refillSlot_spec {k node : Nat} (hlive : ∀ old, s.pool k = some old → s.heap old ≠ none)
    (h : s.refillSlot et k node = some t) : Refilled et s t k node := by
  unfold refillSlot at h
  split at h
  · cases h
  · next hnode =>
    cases h
    have hne : ∀ old, s.pool k = some old → node ≠ old := by
      rintro old hold rfl
      exact hlive node hold hnode
    refine ⟨hnode, rfl, rfl, rfl, ?_, ?_, ?_, ?_, ?_⟩
    · cases hold : s.pool k with
      | none => exact Function.update_self _ _ _
      | some old =>
        exact (Function.update_of_ne (hne old hold) _ _).trans (Function.update_self _ _ _)
    · intro old hold
      simp only [hold]
      exact Function.update_self _ _ _
    · intro a ha hpool
      cases hold : s.pool k with
      | none => exact Function.update_of_ne ha _ _
      | some old =>
        have hao : a ≠ old := fun heq ↦ hpool (heq ▸ hold)
        exact (Function.update_of_ne hao _ _).trans (Function.update_of_ne ha _ _)
    · intro hf
      simp only [hf]
      exact Function.update_self _ _ _
    · intro a ha
      cases et.poolIndex with
      | none => exact Function.update_of_ne ha _ _
      | some field => rfl

namespace Refilled

variable {k node : Nat} (hr : Refilled et s t k node)
include hr

theorem pool_self : t.pool k = some node := by
  rw [hr.pool, Function.update_self]

theorem pool_other {i : Nat} (hi : i ≠ k) : t.pool i = s.pool i := by
  rw [hr.pool, Function.update_of_ne hi]

end Refilled

namespace Owned

variable {k node : Nat}

/-- The object of a slot is in use. -/
theorem live (h : Owned C s) (i a : Nat) (hi : s.pool i = some a) : s.heap a ≠ none := by
  obtain ⟨e, he⟩ := (h.heap_iff a).mpr ⟨i, hi⟩
  rw [he]
  exact Option.some_ne_none e

theorem refilled (h : Owned C s) (ht : s.refillSlot et k node = some t) :
    Refilled et s t k node :=
  refillSlot_spec (h.live k) ht

/-- An address not in use is that of no slot. -/
theorem ne_unused (h : Owned C s) (hr : Refilled et s t k node) (i : Nat) :
    s.pool i ≠ some node :=
  fun hi ↦ h.live i node hi hr.unused

/-- A round leaves the objects in use to the slots. -/
theorem refillSlot (h : Owned C s) (hk : k < C.val) (ht : s.refillSlot et k node = some t) :
    Owned C t := by
  have hr := h.refilled ht
  have hnode := h.ne_unused hr
  refine ⟨hr.count.trans h.count, ?_, ?_, ?_⟩
  · intro i a hi
    by_cases hik : i = k
    · rw [hik]
      exact hk
    · rw [hr.pool_other hik] at hi
      exact h.slots_lt i a hi
  · intro i j a hi hj
    by_cases hik : i = k <;> by_cases hjk : j = k
    · rw [hik, hjk]
    · rw [hik, hr.pool_self] at hi
      rw [hr.pool_other hjk, ← hi] at hj
      exact absurd hj (hnode j)
    · rw [hjk, hr.pool_self] at hj
      rw [hr.pool_other hik, ← hj] at hi
      exact absurd hi (hnode i)
    · rw [hr.pool_other hik] at hi
      rw [hr.pool_other hjk] at hj
      exact h.slots_inj i j a hi hj
  · intro a
    by_cases ha : a = node
    · rw [ha, hr.heap_node]
      exact iff_of_true ⟨_, rfl⟩ ⟨k, hr.pool_self⟩
    · by_cases hold : s.pool k = some a
      · rw [hr.heap_old a hold]
        refine iff_of_false (fun ⟨e, he⟩ ↦ nomatch he) ?_
        rintro ⟨i, hi⟩
        by_cases hik : i = k
        · rw [hik, hr.pool_self] at hi
          exact ha (Option.some.inj hi).symm
        · rw [hr.pool_other hik] at hi
          exact hik (h.slots_inj i k a hi hold)
      · rw [hr.heap_other a ha hold, h.heap_iff]
        constructor
        · rintro ⟨i, hi⟩
          have hik : i ≠ k := fun hik ↦ hold (hik ▸ hi)
          exact ⟨i, (hr.pool_other hik).trans hi⟩
        · rintro ⟨i, hi⟩
          have hik : i ≠ k := by
            rintro rfl
            rw [hr.pool_self] at hi
            exact ha (Option.some.inj hi).symm
          exact ⟨i, (hr.pool_other hik).symm.trans hi⟩

end Owned

/-- A round fills its slot. -/
private theorem Filling.refillSlot {k node : Nat} (h : Filling C et k s) (hk : k < C.val)
    (ht : s.refillSlot et k node = some t) : Filling C et (k + 1) t := by
  have hr := h.refilled ht
  have hnode := h.ne_unused hr
  refine ⟨h.toOwned.refillSlot hk ht, ?_, ?_, ?_, ?_, ?_⟩
  · intro i hi
    by_cases hik : i = k
    · exact ⟨node, hik ▸ hr.pool_self⟩
    · rw [hr.pool_other hik]
      exact h.filled i (by omega)
  · intro i hi a hia
    by_cases hik : i = k
    · rw [hik, hr.pool_self] at hia
      rw [hik, ← Option.some.inj hia]
      exact slotIndex_new hk hr.heap_node hr.ptr_node
    · -- the object of another slot is neither the new one nor the one deleted
      rw [hr.pool_other hik] at hia
      have hne : a ≠ node := fun ha ↦ hnode i (ha ▸ hia)
      have hold : s.pool k ≠ some a := fun hka ↦ hik (h.slots_inj i k a hia hka)
      rw [slotIndex_congr (hr.heap_other a hne hold) (hr.ptr_other a hne)]
      exact h.index i (by omega) a hia
  · intro i hi
    rw [hr.freeList]
    by_cases hik : i = k
    · rw [hik, Function.update_self]
    · rw [Function.update_of_ne hik]
      exact h.free i (by omega)
  · intro hf a i hai
    by_cases ha : a = node
    · rw [ha, hr.ptr_node hf] at hai
      rw [ha, ← Option.some.inj hai]
      exact hr.pool_self
    · rw [hr.ptr_other a ha] at hai
      have hi := h.exact_keys hf a i hai
      have hik : i ≠ k := by
        rintro rfl
        rw [h.unfilled hf i (Nat.le_refl i)] at hi
        cases hi
      exact (hr.pool_other hik).trans hi
  · intro hf i hi
    rw [hr.pool_other (by omega)]
    exact h.unfilled hf i (by omega)

/-- The loop fills the slots from where it starts. -/
theorem Filling.refill {k : Nat} {nodes : List Nat} (h : Filling C et k s)
    (hk : k + nodes.length = C.val) (ht : s.refill et k nodes = some t) :
    Filling C et C.val t := by
  induction nodes generalizing k s with
  | nil =>
    cases ht
    rw [List.length_nil, Nat.add_zero] at hk
    exact hk ▸ h
  | cons node nodes ih =>
    rw [List.length_cons] at hk
    obtain ⟨r, hr, hrest⟩ := Option.bind_eq_some_iff.mp ht
    exact ih (h.refillSlot (by omega) hr) (by omega) hrest

/-- A pool just constructed. -/
theorem Filling.construct {nodes : List Nat} (hlen : nodes.length = C.val)
    (ht : construct C et nodes = some t) : Filling C et C.val t := by
  refine Filling.refill (k := 0) ⟨⟨rfl, ?_, ?_, ?_⟩, ?_, ?_, ?_, ?_, ?_⟩ (by omega) ht
  · exact fun _ _ h ↦ nomatch h
  · exact fun _ _ _ h ↦ nomatch h
  · exact fun _ ↦ iff_of_false (fun ⟨_, h⟩ ↦ nomatch h) fun ⟨_, h⟩ ↦ nomatch h
  · exact fun _ h ↦ absurd h (Nat.not_lt_zero _)
  · exact fun _ h ↦ absurd h (Nat.not_lt_zero _)
  · exact fun _ h ↦ absurd h (Nat.not_lt_zero _)
  · exact fun _ _ _ h ↦ nomatch h
  · exact fun _ _ _ ↦ rfl

end EventPool

end EventStreamCore.Memory
