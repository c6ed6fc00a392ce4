import EventStreamCore.Lib.Machine
import EventStreamCore.Memory.EventPool
import Mathlib.Data.List.Perm.Subperm

/-!
# Callers of the event pool

Runs of `acquire`, `release` and `reset` on an `EventPool` just constructed,
`include/eventstream/core/memory/event_pool.hpp:69–206`, by callers that release only what they
hold, leave `pool_index_` alone and reset the pool only while they hold nothing; with the event
type `HighPerformanceEvent` of `hp_event.hpp:15–51`.
-/

namespace EventStreamCore.Memory
open EventStreamCore.Lib

universe u

/-- A pool, and the events handed out and not released since, each with the slot it was taken
from; a heap fallback was taken from none. -/
structure PoolRun (ε : Type u) where
  pool : EventPool ε
  outstanding : List (Nat × Option Nat)

/-- A call on the pool, or a write of a caller to an event it holds. -/
inductive PoolLabel (ε : Type u) where
  | acquire (node : Nat)
  | release (obj : Option Nat)
  | write (obj : Nat) (event : ε)
  | reset (nodes : List Nat)

/-- Whether a call is `reset`. -/
def PoolLabel.isReset {ε : Type u} : PoolLabel ε → Bool
  | .reset _ => true
  | _ => false

namespace PoolRun

variable {ε : Type u}

/-- The addresses of the events handed out. -/
def handedOut (r : PoolRun ε) : List Nat := r.outstanding.map Prod.fst

/-- One call as the callers may make it: they release only what they hold, leave `pool_index_`
alone, and reset the pool only while they hold nothing. -/
def step (C : PoolCapacity) (et : EventType ε) (r : PoolRun ε) : PoolLabel ε → Option (PoolRun ε)
  | .acquire node => (r.pool.acquire et node).map fun (pool, obj) ↦
      ⟨pool, (obj, if r.pool.availableCount = 0 then none
        else some (r.pool.freeList (r.pool.availableCount - 1))) :: r.outstanding⟩
  | .release none => (r.pool.release C et none).map fun pool ↦ { r with pool }
  | .release (some obj) =>
    if obj ∈ r.handedOut then
      (r.pool.release C et (some obj)).map fun pool ↦
        ⟨pool, r.outstanding.filter fun o ↦ o.1 ≠ obj⟩
    else none
  | .write obj event =>
    if obj ∈ r.handedOut ∧ et.index event = (r.pool.heap obj).bind et.index then
      some { r with
        pool := { r.pool with heap := Function.update r.pool.heap obj (some event) } }
    else none
  | .reset nodes =>
    if r.outstanding = [] ∧ nodes.length = C.val then
      (r.pool.reset C et nodes).map fun pool ↦ { r with pool }
    else none

end PoolRun

/-- All runs of the callers of a pool just constructed. -/
def poolRuns {ε : Type u} (C : PoolCapacity) (et : EventType ε) (pool : EventPool ε) :
    Machine (PoolRun ε) (PoolLabel ε) where
  start := ⟨pool, []⟩
  step := PoolRun.step C et

namespace PoolRun

variable {ε : Type u} {C : PoolCapacity} {et : EventType ε} {r q : PoolRun ε}

/-- The free slots are distinct and are those whose event is not handed out; the objects in use
are those of the slots and the fallbacks; and every object is taken for what it is. -/
structure Inv (C : PoolCapacity) (et : EventType ε) (r : PoolRun ε) : Prop where
  free_nodup : r.pool.freeSlots.Nodup
  slots : ∀ i, (∃ a, r.pool.pool i = some a) ↔ i < C.val
  slots_inj : ∀ i j a, r.pool.pool i = some a → r.pool.pool j = some a → i = j
  heap_iff : ∀ a, (∃ e, r.pool.heap a = some e) ↔
    (∃ i, r.pool.pool i = some a) ∨ (a, none) ∈ r.outstanding
  taken : ∀ a i, (a, some i) ∈ r.outstanding ↔
    r.pool.pool i = some a ∧ i ∉ r.pool.freeSlots
  free_lt : ∀ i ∈ r.pool.freeSlots, i < C.val
  fallback : ∀ a, (a, none) ∈ r.outstanding → ∀ i, r.pool.pool i ≠ some a
  out_nodup : r.handedOut.Nodup
  slot_index : ∀ i a, r.pool.pool i = some a → r.pool.slotIndex et a = some (some i)
  fallback_index : ∀ a, (a, none) ∈ r.outstanding → r.pool.slotIndex et a = some none
  exact_keys : et.poolIndex = none → ∀ a i, r.pool.ptrToIndex a = some i →
    r.pool.pool i = some a

/-- Filled slots, with nothing handed out. -/
theorem Inv.of_filling {pool : EventPool ε} (h : EventPool.Filling C et C.val pool) :
    Inv C et ⟨pool, []⟩ := by
  have hfree : pool.freeSlots = List.range C.val := by
    rw [EventPool.freeSlots, h.count]
    conv => rhs; rw [← List.map_id (List.range C.val)]
    apply List.map_congr_left
    intro i hi
    exact h.free i (List.mem_range.mp hi)
  refine ⟨?_, ?_, h.slots_inj, ?_, ?_, ?_, ?_, List.nodup_nil, ?_, ?_, h.exact_keys⟩
  · rw [hfree]
    exact List.nodup_range
  · intro i
    constructor
    · rintro ⟨a, hi⟩
      exact h.slots_lt i a hi
    · exact h.filled i
  · intro a
    rw [h.heap_iff]
    exact (or_iff_left List.not_mem_nil).symm
  · intro a i
    refine iff_of_false List.not_mem_nil ?_
    rintro ⟨hi, hfresh⟩
    rw [hfree] at hfresh
    exact hfresh (List.mem_range.mpr (h.slots_lt i a hi))
  · intro i hi
    rw [hfree] at hi
    exact List.mem_range.mp hi
  · exact fun _ hm ↦ absurd hm List.not_mem_nil
  · exact fun i a hi ↦ h.index i (h.slots_lt i a hi) a hi
  · exact fun _ hm ↦ absurd hm List.not_mem_nil

/-- What is handed out is in use. -/
theorem Inv.live (h : r.Inv C et) {a : Nat} (ha : a ∈ r.handedOut) :
    ∃ e, r.pool.heap a = some e := by
  obtain ⟨⟨b, slot⟩, hm, rfl⟩ := List.mem_map.mp ha
  rw [h.heap_iff]
  cases slot with
  | none => exact .inr hm
  | some i => exact .inl ⟨i, ((h.taken b i).mp hm).1⟩

/-- A slot whose event is handed out is not free. -/
theorem Inv.not_free (h : r.Inv C et) {a i : Nat} (ha : a ∈ r.handedOut)
    (hi : r.pool.pool i = some a) : i ∉ r.pool.freeSlots := by
  obtain ⟨⟨b, slot⟩, hm, rfl⟩ := List.mem_map.mp ha
  cases slot with
  | none => exact absurd hi (h.fallback b hm i)
  | some j =>
    obtain ⟨hj, hfree⟩ := (h.taken b j).mp hm
    rwa [h.slots_inj i j b hi hj]

/-- An event in hand keeps a slot from being free, so the free list has room. -/
theorem Inv.count_lt (h : r.Inv C et) {a i : Nat} (hm : (a, some i) ∈ r.outstanding) :
    r.pool.availableCount < C.val := by
  obtain ⟨hpool, hfree⟩ := (h.taken a i).mp hm
  have hsub : i :: r.pool.freeSlots ⊆ List.range C.val := by
    intro j hj
    rw [List.mem_range]
    rcases List.mem_cons.mp hj with rfl | hj
    · exact (h.slots j).mp ⟨a, hpool⟩
    · exact h.free_lt j hj
  have hle := (List.subperm_of_subset (List.nodup_cons.mpr ⟨hfree, h.free_nodup⟩) hsub).length_le
  rw [List.length_cons, List.length_range, EventPool.freeSlots, List.length_map,
    List.length_range] at hle
  omega

/-! ### acquire -/

/-- A fallback is a new object. -/
private theorem Inv.acquire_fallback (h : r.Inv C et) {node : Nat}
    (hnode : r.pool.heap node = none) :
    Inv C et ⟨{ r.pool with heap := Function.update r.pool.heap node (some et.fresh) },
      (node, none) :: r.outstanding⟩ := by
  have hslot : ∀ i, r.pool.pool i ≠ some node := by
    intro i hi
    obtain ⟨e, he⟩ := (h.heap_iff node).mpr (.inl ⟨i, hi⟩)
    rw [hnode] at he
    cases he
  have hout : node ∉ r.handedOut := by
    intro hm
    obtain ⟨e, he⟩ := h.live hm
    rw [hnode] at he
    cases he
  have hne : ∀ a slot, (a, slot) ∈ r.outstanding → a ≠ node := by
    rintro a slot hm rfl
    exact hout (List.mem_map.mpr ⟨_, hm, rfl⟩)
  refine ⟨h.free_nodup, h.slots, h.slots_inj, ?_, ?_, h.free_lt, ?_,
    List.nodup_cons.mpr ⟨hout, h.out_nodup⟩, ?_, ?_, h.exact_keys⟩
  · intro a
    by_cases ha : a = node
    · rw [ha]
      exact iff_of_true ⟨_, Function.update_self _ _ _⟩ (.inr List.mem_cons_self)
    · change (∃ e, Function.update r.pool.heap node _ a = some e) ↔ _
      rw [Function.update_of_ne ha, h.heap_iff, List.mem_cons, Prod.mk.injEq, and_iff_left rfl,
        or_iff_right ha]
  · intro a i
    change (a, some i) ∈ (node, none) :: r.outstanding ↔ _
    rw [List.mem_cons]
    exact (or_iff_right nofun).trans (h.taken a i)
  · intro a hm
    rcases List.mem_cons.mp hm with heq | hm
    · cases heq
      exact hslot
    · exact h.fallback a hm
  · intro i a hi
    have ha : a ≠ node := fun ha ↦ hslot i (ha ▸ hi)
    rw [← h.slot_index i a hi]
    exact EventPool.slotIndex_congr (Function.update_of_ne ha _ _) rfl
  · intro a hm
    rcases List.mem_cons.mp hm with heq | hm
    · cases heq
      -- a new event has the sentinel, and no key is left of an address not in use
      unfold EventPool.slotIndex
      cases hf : et.poolIndex with
      | none =>
        cases hk : r.pool.ptrToIndex node with
        | none => rfl
        | some i => exact absurd (h.exact_keys hf node i hk) (hslot i)
      | some field =>
        simp only [Function.update_self, Option.map_some, field.get_fresh, if_true]
    · rw [← h.fallback_index a hm]
      exact EventPool.slotIndex_congr (Function.update_of_ne (hne a none hm) _ _) rfl

/-- The event of the last free slot is not handed out. -/
private theorem Inv.acquire_slot (h : r.Inv C et) (hcount : r.pool.availableCount ≠ 0) :
    ∃ obj, r.pool.pool (r.pool.freeList (r.pool.availableCount - 1)) = some obj ∧
      obj ∉ r.handedOut ∧
      Inv C et ⟨{ r.pool with availableCount := r.pool.availableCount - 1 },
        (obj, some (r.pool.freeList (r.pool.availableCount - 1))) :: r.outstanding⟩ := by
  generalize hidx : r.pool.freeList (r.pool.availableCount - 1) = idx
  have hsplit := r.pool.freeSlots_pop hcount
  rw [hidx] at hsplit
  have hmem : idx ∈ r.pool.freeSlots := hsplit ▸ List.mem_append_right _ List.mem_cons_self
  have hrest : ∀ i, i ∈ EventPool.freeSlots
      { r.pool with availableCount := r.pool.availableCount - 1 } ↔
      i ∈ r.pool.freeSlots ∧ i ≠ idx := by
    intro i
    have hnodup := h.free_nodup
    rw [hsplit, List.nodup_append] at hnodup
    rw [hsplit, List.mem_append, List.mem_singleton]
    constructor
    · exact fun hi ↦ ⟨.inl hi, fun heq ↦ hnodup.2.2 i hi idx List.mem_cons_self heq⟩
    · exact fun hi ↦ hi.1.resolve_right hi.2
  obtain ⟨obj, hobj⟩ := (h.slots idx).mpr (h.free_lt idx hmem)
  have hout : obj ∉ r.handedOut := fun hm ↦ h.not_free hm hobj hmem
  refine ⟨obj, hobj, hout, ?_, h.slots, h.slots_inj, ?_, ?_, ?_, ?_,
    List.nodup_cons.mpr ⟨hout, h.out_nodup⟩, h.slot_index, ?_, h.exact_keys⟩
  · have hnodup := h.free_nodup
    rw [hsplit] at hnodup
    exact (List.nodup_append.mp hnodup).1
  · intro a
    rw [h.heap_iff, List.mem_cons]
    exact or_congr_right (or_iff_right nofun).symm
  · intro a i
    rw [List.mem_cons, h.taken, hrest, Prod.mk.injEq, Option.some.injEq]
    constructor
    · rintro (⟨rfl, rfl⟩ | ⟨hi, hfree⟩)
      · exact ⟨hobj, fun hi ↦ hi.2 rfl⟩
      · exact ⟨hi, fun hmem ↦ hfree hmem.1⟩
    · rintro ⟨hi, hfree⟩
      by_cases hii : i = idx
      · rw [hii, hobj] at hi
        exact .inl ⟨(Option.some.inj hi).symm, hii⟩
      · exact .inr ⟨hi, fun hmem ↦ hfree ⟨hmem, hii⟩⟩
  · exact fun i hi ↦ h.free_lt i ((hrest i).mp hi).1
  · intro a hm
    exact h.fallback a ((List.mem_cons.mp hm).resolve_left nofun)
  · intro a hm
    exact h.fallback_index a ((List.mem_cons.mp hm).resolve_left nofun)

/-! ### release -/

/-- The events still in hand once `obj` is released. -/
private theorem mem_released {obj a : Nat} {slot : Option Nat} :
    (a, slot) ∈ r.outstanding.filter (fun o ↦ o.1 ≠ obj) ↔
      (a, slot) ∈ r.outstanding ∧ a ≠ obj := by
  simp

private theorem nodup_released (h : r.Inv C et) (obj : Nat) :
    ((r.outstanding.filter fun o ↦ o.1 ≠ obj).map Prod.fst).Nodup :=
  List.Nodup.sublist (List.filter_sublist.map Prod.fst) h.out_nodup

/-- The event of a slot goes back to its slot. -/
theorem Inv.release_slot (h : r.Inv C et) {obj i : Nat} (hm : (obj, some i) ∈ r.outstanding) :
    ∃ pool, r.pool.release C et (some obj) = some pool ∧ pool.heap = r.pool.heap ∧
      pool.pool = r.pool.pool ∧
      Inv C et ⟨pool, r.outstanding.filter fun o ↦ o.1 ≠ obj⟩ := by
  obtain ⟨hpool, hfree⟩ := (h.taken obj i).mp hm
  have hlt := (h.slots i).mp ⟨obj, hpool⟩
  have hcount := h.count_lt hm
  refine ⟨{ r.pool with
    freeList := Function.update r.pool.freeList r.pool.availableCount i
    availableCount := r.pool.availableCount + 1 }, ?_, rfl, rfl, ?_⟩
  · rw [EventPool.release, if_neg (by omega), h.slot_index i obj hpool]
    exact if_neg (by omega)
  · have hpush := r.pool.freeSlots_push i
    have hother : ∀ j a, r.pool.pool j = some a → j ≠ i → a ≠ obj := by
      rintro j a hj hji rfl
      exact hji (h.slots_inj j i a hj hpool)
    refine ⟨?_, h.slots, h.slots_inj, ?_, ?_, ?_, ?_, nodup_released h obj, h.slot_index, ?_,
      h.exact_keys⟩
    · rw [hpush, List.nodup_append]
      refine ⟨h.free_nodup, List.nodup_singleton i, ?_⟩
      intro j hj k hk hjk
      rw [List.mem_singleton.mp hk] at hjk
      exact hfree (hjk ▸ hj)
    · intro a
      rw [h.heap_iff, mem_released]
      constructor
      · rintro (hslot | hout)
        · exact .inl hslot
        · refine .inr ⟨hout, ?_⟩
          rintro rfl
          exact h.fallback a hout i hpool
      · exact Or.imp_right And.left
    · intro a j
      rw [mem_released, h.taken, hpush, List.mem_append, List.mem_singleton, not_or]
      constructor
      · rintro ⟨⟨hj, hjfree⟩, ha⟩
        refine ⟨hj, hjfree, ?_⟩
        rintro rfl
        rw [hpool] at hj
        exact ha (Option.some.inj hj).symm
      · rintro ⟨hj, hjfree, hji⟩
        exact ⟨⟨hj, hjfree⟩, hother j a hj hji⟩
    · intro j hj
      rw [hpush] at hj
      rcases List.mem_append.mp hj with hj | hj
      · exact h.free_lt j hj
      · rw [List.mem_singleton.mp hj]
        exact hlt
    · exact fun a ha ↦ h.fallback a (mem_released.mp ha).1
    · exact fun a ha ↦ h.fallback_index a (mem_released.mp ha).1

/-- A fallback is deleted, by whichever of the tests comes first. -/
theorem Inv.release_fallback (h : r.Inv C et) {obj : Nat} (hm : (obj, none) ∈ r.outstanding) :
    r.pool.release C et (some obj)
        = some { r.pool with heap := Function.update r.pool.heap obj none } ∧
      Inv C et ⟨{ r.pool with heap := Function.update r.pool.heap obj none },
        r.outstanding.filter fun o ↦ o.1 ≠ obj⟩ := by
  have hslot := h.fallback obj hm
  have hpoolne : ∀ i a, r.pool.pool i = some a → a ≠ obj := by
    rintro i a hi rfl
    exact hslot i hi
  constructor
  · obtain ⟨e, he⟩ := h.live (List.mem_map.mpr ⟨_, hm, rfl⟩)
    have hdelete : r.pool.delete obj
        = some { r.pool with heap := Function.update r.pool.heap obj none } := by
      rw [EventPool.delete, he]
      rfl
    rw [EventPool.release, h.fallback_index obj hm, hdelete]
    exact ite_self _
  · refine ⟨h.free_nodup, h.slots, h.slots_inj, ?_, ?_, h.free_lt, ?_, nodup_released h obj,
      ?_, ?_, h.exact_keys⟩
    · intro a
      rw [mem_released]
      by_cases ha : a = obj
      · rw [ha]
        refine iff_of_false (fun ⟨e, he⟩ ↦ ?_) ?_
        · cases (Function.update_self obj none r.pool.heap).symm.trans he
        · rintro (⟨i, hi⟩ | ⟨-, hne⟩)
          · exact hslot i hi
          · exact hne rfl
      · change (∃ e, Function.update r.pool.heap obj none a = some e) ↔ _
        rw [Function.update_of_ne ha, h.heap_iff, and_iff_left ha]
    · intro a i
      rw [mem_released, h.taken]
      exact and_iff_left_of_imp fun hi ↦ hpoolne i a hi.1
    · exact fun a ha ↦ h.fallback a (mem_released.mp ha).1
    · intro i a hi
      rw [← h.slot_index i a hi]
      exact EventPool.slotIndex_congr (Function.update_of_ne (hpoolne i a hi) _ _) rfl
    · intro a ha
      obtain ⟨ha, hne⟩ := mem_released.mp ha
      rw [← h.fallback_index a ha]
      exact EventPool.slotIndex_congr (Function.update_of_ne hne _ _) rfl

/-! ### Every step -/

/-- A write that leaves the field alone is not noticed. -/
private theorem Inv.write (h : r.Inv C et) {obj : Nat} {event : ε} (hobj : obj ∈ r.handedOut)
    (hindex : et.index event = (r.pool.heap obj).bind et.index) :
    Inv C et { r with
      pool := { r.pool with heap := Function.update r.pool.heap obj (some event) } } := by
  obtain ⟨old, hold⟩ := h.live hobj
  have hsame : ∀ a, EventPool.slotIndex et
      { r.pool with heap := Function.update r.pool.heap obj (some event) } a
      = r.pool.slotIndex et a := by
    intro a
    by_cases ha : a = obj
    · unfold EventPool.slotIndex EventType.index at *
      cases hf : et.poolIndex with
      | none => rfl
      | some field =>
        rw [hf, hold] at hindex
        have hget : field.get event = field.get old := Option.some.inj hindex
        simp only [ha, Function.update_self, Option.map_some, hold, hget]
    · exact EventPool.slotIndex_congr (Function.update_of_ne ha _ _) rfl
  refine ⟨h.free_nodup, h.slots, h.slots_inj, ?_, h.taken, h.free_lt, h.fallback, h.out_nodup,
    ?_, ?_, h.exact_keys⟩
  · intro a
    rw [← h.heap_iff]
    by_cases ha : a = obj
    · rw [ha]
      exact iff_of_true ⟨event, Function.update_self _ _ _⟩ ⟨old, hold⟩
    · change (∃ e, Function.update r.pool.heap obj _ a = some e) ↔ _
      rw [Function.update_of_ne ha]
  · exact fun i a hi ↦ (hsame a).trans (h.slot_index i a hi)
  · exact fun a ha ↦ (hsame a).trans (h.fallback_index a ha)

/-- A reset with nothing handed out, of a pool whose events carry their index. -/
private theorem Inv.reset (h : r.Inv C et) (hf : et.poolIndex ≠ none) (hout : r.outstanding = [])
    {nodes : List Nat} (hlen : nodes.length = C.val) {pool : EventPool ε}
    (ht : r.pool.reset C et nodes = some pool) : Inv C et { r with pool } := by
  have hstart : EventPool.Filling C et 0 { r.pool with availableCount := C.val } := by
    refine ⟨⟨rfl, fun i a hi ↦ (h.slots i).mp ⟨a, hi⟩, h.slots_inj, ?_⟩, ?_, ?_, ?_,
      fun hn ↦ absurd hn hf, fun hn ↦ absurd hn hf⟩
    · intro a
      rw [h.heap_iff, hout]
      exact or_iff_left List.not_mem_nil
    · exact fun _ hi ↦ absurd hi (Nat.not_lt_zero _)
    · exact fun _ hi ↦ absurd hi (Nat.not_lt_zero _)
    · exact fun _ hi ↦ absurd hi (Nat.not_lt_zero _)
  rw [hout]
  exact Inv.of_filling (hstart.refill (by omega) ht)

/-- The calls considered: a pool that finds its slots by a map is not reset. -/
def Allowed (et : EventType ε) (_ : PoolRun ε) (l : PoolLabel ε) : Prop :=
  et.poolIndex = none → ¬ l.isReset

/-- Every call keeps the pool in order. -/
theorem Inv.step {l : PoolLabel ε} (h : r.Inv C et) (hl : Allowed et r l)
    (ht : r.step C et l = some q) : q.Inv C et := by
  cases l with
  | acquire node =>
    obtain ⟨⟨pool, obj⟩, hacq, rfl⟩ := Option.map_eq_some_iff.mp ht
    unfold EventPool.acquire at hacq
    split at hacq
    · next hzero =>
      split at hacq
      · cases hacq
      · next hnode =>
        cases hacq
        rw [if_pos hzero]
        exact h.acquire_fallback hnode
    · next hcount =>
      obtain ⟨a, ha, -, hinv⟩ := h.acquire_slot hcount
      simp only [ha, Option.map_some] at hacq
      cases hacq
      rw [if_neg hcount]
      exact hinv
  | release obj =>
    cases obj with
    | none =>
      cases ht
      exact h
    | some obj =>
      simp only [PoolRun.step] at ht
      split at ht
      · next hobj =>
        obtain ⟨⟨a, slot⟩, hm, rfl⟩ := List.mem_map.mp hobj
        cases slot with
        | none =>
          obtain ⟨hrel, hinv⟩ := h.release_fallback hm
          rw [hrel] at ht
          cases ht
          exact hinv
        | some i =>
          obtain ⟨pool, hrel, -, -, hinv⟩ := h.release_slot hm
          rw [hrel] at ht
          cases ht
          exact hinv
      · cases ht
  | write obj event =>
    simp only [PoolRun.step] at ht
    split at ht
    · next hw =>
      cases ht
      exact h.write hw.1 hw.2
    · cases ht
  | reset nodes =>
    simp only [PoolRun.step] at ht
    split at ht
    · next hr =>
      obtain ⟨pool, hreset, rfl⟩ := Option.map_eq_some_iff.mp ht
      have hf : et.poolIndex ≠ none := fun hf ↦ hl hf rfl
      exact h.reset hf hr.1 hr.2 hreset
    · cases ht

/-- Every pool reached by allowed calls is in order. -/
theorem Inv.of_reachable {nodes : List Nat} {pool₀ : EventPool ε} (hlen : nodes.length = C.val)
    (hpool : EventPool.construct C et nodes = some pool₀)
    (h : (poolRuns C et pool₀).ReachableWith (Allowed et) r) : r.Inv C et :=
  h.invariant (Inv.of_filling (.construct hlen hpool)) fun _ _ _ hi hl hs ↦ hi.step hl hs

/-- In every run of acquires and releases, with resets if the events carry their index, the first
`available_count_` entries of `free_list_` are distinct and are the slots whose event is not
handed out; `acquire` hands out an event nobody holds; and `release` deletes an event exactly if
it was a fallback, and never the event of a slot. -/
theorem pool_hands_out_once {nodes : List Nat} {pool₀ : EventPool ε}
    (hlen : nodes.length = C.val) (hpool : EventPool.construct C et nodes = some pool₀)
    (h : (poolRuns C et pool₀).ReachableWith (Allowed et) r) :
    (r.pool.freeSlots.Nodup ∧
      ∀ i, i ∈ r.pool.freeSlots ↔
        i < C.val ∧ ∀ a ∈ r.handedOut, r.pool.pool i ≠ some a) ∧
    (∀ node, r.pool.heap node = none →
      ∃ pool obj, r.pool.acquire et node = some (pool, obj) ∧ obj ∉ r.handedOut) ∧
    ∀ obj slot, (obj, slot) ∈ r.outstanding →
      ∃ pool, r.pool.release C et (some obj) = some pool ∧
        (pool.heap obj = none ↔ slot = none) ∧
        ∀ i a, pool.pool i = some a → ∃ e, pool.heap a = some e := by
  have hi : r.Inv C et := .of_reachable hlen hpool h
  refine ⟨⟨hi.free_nodup, fun i ↦ ⟨fun hfree ↦ ⟨hi.free_lt i hfree, ?_⟩, ?_⟩⟩, ?_, ?_⟩
  · exact fun a ha hslot ↦ hi.not_free ha hslot hfree
  · rintro ⟨hlt, hout⟩
    obtain ⟨a, ha⟩ := (hi.slots i).mpr hlt
    by_contra hfree
    exact hout a (List.mem_map.mpr ⟨_, (hi.taken a i).mpr ⟨ha, hfree⟩, rfl⟩) ha
  · intro node hnode
    by_cases hzero : r.pool.availableCount = 0
    · refine ⟨_, node, by rw [EventPool.acquire, if_pos hzero, hnode], fun hm ↦ ?_⟩
      obtain ⟨e, he⟩ := hi.live hm
      rw [hnode] at he
      cases he
    · obtain ⟨obj, hobj, hout, -⟩ := hi.acquire_slot hzero
      exact ⟨_, obj, by simp only [EventPool.acquire, if_neg hzero, hobj]; rfl, hout⟩
  · intro obj slot hm
    obtain ⟨e, he⟩ := hi.live (List.mem_map.mpr ⟨_, hm, rfl⟩)
    cases slot with
    | none =>
      obtain ⟨hrel, -⟩ := hi.release_fallback hm
      refine ⟨_, hrel, iff_of_true (Function.update_self _ _ _) rfl, fun i a ha ↦ ?_⟩
      have hne : a ≠ obj := by
        rintro rfl
        exact hi.fallback a hm i ha
      obtain ⟨e', he'⟩ := (hi.heap_iff a).mpr (.inl ⟨i, ha⟩)
      exact ⟨e', (Function.update_of_ne hne _ _).trans he'⟩
    | some i =>
      obtain ⟨pool, hrel, hheap, hslots, -⟩ := hi.release_slot hm
      refine ⟨pool, hrel, ?_, fun j a ha ↦ ?_⟩
      · rw [hheap, he]
        exact iff_of_false nofun nofun
      · rw [hheap]
        exact (hi.heap_iff a).mpr (.inl ⟨j, hslots ▸ ha⟩)

end PoolRun

/-! ### HighPerformanceEvent -/

/-- `HighPerformanceEvent`; `hp_event.hpp:15–35`. -/
structure HighPerformanceEvent where
  poolIndex : UInt64
  eventId : UInt64
  topicId : UInt32
  ingestTimestampNs : UInt64
  dequeueTimestampNs : UInt64
  processDoneTimestampNs : UInt64
  payloadSize : UInt32
  sourceType : UInt32
  payload : Vector UInt8 512

namespace HighPerformanceEvent

/-- A value-initialised event. -/
def fresh : HighPerformanceEvent :=
  ⟨UInt64.ofNat sizeMax, 0, 0, 0, 0, 0, 0, 0, Vector.replicate 512 0⟩

/-- `HighPerformanceEvent::reset`; `hp_event.hpp:41–51`. -/
def reset (event : HighPerformanceEvent) : HighPerformanceEvent :=
  { event with
    eventId := 0
    topicId := 0
    ingestTimestampNs := 0
    dequeueTimestampNs := 0
    processDoneTimestampNs := 0
    payloadSize := 0
    sourceType := 0
    payload := Vector.replicate 512 0 }

/-- `HighPerformanceEvent` as an event type of a pool. -/
def eventType : EventType HighPerformanceEvent where
  fresh := fresh
  poolIndex := some {
    get := fun event ↦ event.poolIndex.toNat
    set := fun i event ↦ { event with poolIndex := UInt64.ofNat i }
    get_set := by
      intro i hi event
      rw [sizeMax] at hi
      exact (UInt64.toNat_ofNat').trans (Nat.mod_eq_of_lt (by omega))
    get_fresh := rfl }

end HighPerformanceEvent

namespace PoolRun

/-- A pool of one slot after both of its events, the slot's and a fallback, were acquired. -/
theorem pool_hands_out_once_exhausted : ∃ r : PoolRun HighPerformanceEvent,
    r.handedOut = [8, 7] ∧ (r.pool.freeSlots.Nodup ∧
      ∀ i, i ∈ r.pool.freeSlots ↔ i < 1 ∧ ∀ a ∈ r.handedOut, r.pool.pool i ≠ some a) := by
  let C : PoolCapacity := ⟨1, by decide, by decide⟩
  let et := HighPerformanceEvent.eventType
  obtain ⟨pool₀, hpool⟩ : ∃ pool₀, EventPool.construct C et [7] = some pool₀ := ⟨_, rfl⟩
  have hrun : ∃ r, (poolRuns C et pool₀).run ⟨pool₀, []⟩ [.acquire 8, .acquire 8] = some r ∧
      r.handedOut = [8, 7] := by
    cases hpool
    exact ⟨_, rfl, rfl⟩
  obtain ⟨r, hrun, hout⟩ := hrun
  have hreach : (poolRuns C et pool₀).ReachableWith (Allowed et) r := by
    have hfield : ∀ q l, Allowed et q l := fun q l hn ↦ nomatch hn
    have h := Machine.Reachable.run (m := poolRuns C et pool₀) .start hrun
    exact h.rec .start fun _ _ hs ih ↦ .next ih (hfield _ _) hs
  exact ⟨r, hout, (pool_hands_out_once rfl hpool hreach).1⟩

end PoolRun
end EventStreamCore.Memory
