import EventStreamCore.Events.Event
import EventStreamCore.Memory.PoolRuns

/-!
# Resetting a pool without an intrusive index

`EventPool::reset`, `include/eventstream/core/memory/event_pool.hpp:193–206`, enters the new
objects into `ptr_to_index_` and leaves the keys of the old ones there. The object of the last
slot is deleted after all new ones are allocated, so its key is always left behind, and the
allocator may return its address for a fallback.
-/

namespace EventStreamCore.Memory
open EventStreamCore.Lib EventStreamCore.Events

universe u

variable {ε : Type u} {C : PoolCapacity} {et : EventType ε}

/-- The loop keeps the key of the object of the last slot, and replaces the object. -/
theorem EventPool.Owned.refill_leaves_key {s t : EventPool ε} {k p : Nat} {nodes : List Nat}
    (h : Owned C s) (hp : s.pool (C.val - 1) = some p) (hk : k + nodes.length = C.val)
    (hpos : 0 < nodes.length) (ht : s.refill et k nodes = some t) :
    t.ptrToIndex p = s.ptrToIndex p ∧ t.pool (C.val - 1) ≠ some p := by
  induction nodes generalizing k s with
  | nil => exact absurd hpos (Nat.lt_irrefl 0)
  | cons node nodes ih =>
    rw [List.length_cons] at hk
    obtain ⟨r, hround, hrest⟩ := Option.bind_eq_some_iff.mp ht
    have hr := h.refilled hround
    have hne : p ≠ node := by
      rintro rfl
      exact h.ne_unused hr _ hp
    cases nodes with
    | nil =>
      cases hrest
      rw [List.length_nil] at hk
      refine ⟨hr.ptr_other p hne, ?_⟩
      rw [show C.val - 1 = k by omega, hr.pool_self]
      exact fun heq ↦ hne (Option.some.inj heq).symm
    | cons node' nodes =>
      rw [List.length_cons] at hk
      have hlast : r.pool (C.val - 1) = some p := (hr.pool_other (by omega)).trans hp
      obtain ⟨hkey, hslot⟩ := ih (h.refillSlot (by omega) hround) hlast
        (by rw [List.length_cons]; omega) (Nat.succ_pos _) hrest
      exact ⟨hkey.trans (hr.ptr_other p hne), hslot⟩

namespace PoolRun

variable {r q : PoolRun ε}

/-- The map holds the addresses of the slots' objects with their slots and nothing else, a
fallback is deleted on release, and no free slot's event is handed out. -/
structure Indexed (C : PoolCapacity) (et : EventType ε) (r : PoolRun ε) : Prop where
  exact_keys : ∀ a i, r.pool.ptrToIndex a = some i ↔ r.pool.pool i = some a
  recognised : ∀ obj, (obj, none) ∈ r.outstanding →
    r.pool.release C et (some obj) = r.pool.delete obj
  apart : ∀ i ∈ r.pool.freeSlots, ∀ a ∈ r.handedOut, r.pool.pool i ≠ some a

/-- Whether a call is not a `reset`, or not one that can be made. -/
def NotReset (C : PoolCapacity) (et : EventType ε) (r : PoolRun ε) (l : PoolLabel ε) : Prop :=
  l.isReset → r.step C et l = none

theorem NotReset.allowed {l : PoolLabel ε} (hno : NotReset C et r l)
    (hs : r.step C et l = some q) : Allowed et r l := by
  intro _ hreset
  rw [hno hreset] at hs
  cases hs

/-- A pool in order is indexed. -/
theorem Inv.indexed (h : r.Inv C et) (hf : et.poolIndex = none) : r.Indexed C et where
  exact_keys a i := by
    constructor
    · exact h.exact_keys hf a i
    · intro hi
      have hslot := h.slot_index i a hi
      rw [EventPool.slotIndex, hf] at hslot
      exact Option.some.inj hslot
  recognised obj hm := by
    rw [EventPool.release, h.fallback_index obj hm]
    exact ite_self _
  apart i hfree a ha hi := h.not_free ha hi hfree

/-- A pool in order is no longer indexed after a reset. -/
theorem Inv.not_indexed_reset (h : r.Inv C et) (hf : et.poolIndex = none) {nodes : List Nat}
    (ht : r.step C et (.reset nodes) = some q) : ¬ q.Indexed C et := by
  simp only [PoolRun.step] at ht
  split at ht
  · next hr =>
    obtain ⟨pool, hreset, rfl⟩ := Option.map_eq_some_iff.mp ht
    obtain ⟨p, hp⟩ := (h.slots (C.val - 1)).mpr (Nat.sub_lt C.pos Nat.one_pos)
    have howned : EventPool.Owned C { r.pool with availableCount := C.val } := by
      refine ⟨rfl, fun i a hi ↦ (h.slots i).mp ⟨a, hi⟩, h.slots_inj, fun a ↦ ?_⟩
      rw [h.heap_iff, hr.1]
      exact or_iff_left List.not_mem_nil
    obtain ⟨hkey, hslot⟩ := howned.refill_leaves_key hp (by rw [hr.2, Nat.zero_add])
      (hr.2 ▸ C.pos) hreset
    intro hindexed
    have hold := ((h.indexed hf).exact_keys p (C.val - 1)).mpr hp
    exact hslot ((hindexed.exact_keys p (C.val - 1)).mp (hkey.trans hold))
  · cases ht

/-- The pool is indexed after its construction, and stays so in exactly those runs in which it is
never reset. -/
theorem indexed_along_iff (hf : et.poolIndex = none) {nodes : List Nat} {pool₀ : EventPool ε}
    (hlen : nodes.length = C.val) (hpool : EventPool.construct C et nodes = some pool₀)
    (ls : List (PoolLabel ε)) :
    Indexed C et ⟨pool₀, []⟩ ∧
    ((poolRuns C et pool₀).Along (fun r l ↦ ∀ q, r.step C et l = some q → q.Indexed C et)
        ⟨pool₀, []⟩ ls ↔
      (poolRuns C et pool₀).Along (NotReset C et) ⟨pool₀, []⟩ ls) := by
  have hstart : Inv C et ⟨pool₀, []⟩ := .of_filling (.construct hlen hpool)
  refine ⟨hstart.indexed hf, Machine.along_congr (I := Inv C et) ?_ ?_ hstart ls⟩
  · intro r l h
    constructor
    · intro hkept hreset
      cases l with
      | reset nodes =>
        cases hs : r.step C et (.reset nodes) with
        | none => rfl
        | some q => exact absurd (hkept q hs) (h.not_indexed_reset hf hs)
      | _ => cases hreset
    · intro hno q hs
      exact (h.step (hno.allowed hs) hs).indexed hf
  · intro r l q h hno hs
    exact h.step (hno.allowed hs) hs

/-- The pool of `Event`, which has no index of its own. -/
def plainEvents : EventType Event := ⟨Event.initial, none⟩

/-- A pool of one slot at address 1. -/
def plainPool : EventPool Event where
  heap := Function.update (fun _ ↦ none) 1 (some Event.initial)
  pool := Function.update (fun _ ↦ none) 0 (some 1)
  ptrToIndex := Function.update (fun _ ↦ none) 1 (some 0)
  freeList := Function.update (fun _ ↦ 0) 0 0
  availableCount := 1

/-- A run with the slot's event and a fallback. -/
theorem indexed_along_plain :
    (poolRuns ⟨1, by decide, by decide⟩ plainEvents plainPool).Along
      (fun r l ↦ ∀ q, r.step ⟨1, by decide, by decide⟩ plainEvents l = some q →
        q.Indexed ⟨1, by decide, by decide⟩ plainEvents)
      ⟨plainPool, []⟩ [.acquire 2, .acquire 2, .release (some 2), .release (some 1)] := by
  have hconstruct : EventPool.construct ⟨1, by decide, by decide⟩ plainEvents [1] =
      some plainPool := rfl
  refine (indexed_along_iff rfl rfl hconstruct _).2.mpr ?_
  simp [Machine.Along, NotReset, PoolLabel.isReset]

/-- After a reset the allocator returns the address of the old slot for a fallback. Its release
makes the slot free whose event is handed out. -/
theorem reset_frees_handed_out : ∃ r q : PoolRun Event,
    (poolRuns ⟨1, by decide, by decide⟩ plainEvents plainPool).run ⟨plainPool, []⟩
      [.reset [2], .acquire 1, .acquire 1] = some r ∧
    r.step ⟨1, by decide, by decide⟩ plainEvents (.release (some 1)) = some q ∧
    ¬ r.Indexed ⟨1, by decide, by decide⟩ plainEvents ∧
    0 ∈ q.pool.freeSlots ∧ 2 ∈ q.handedOut ∧ q.pool.pool 0 = some 2 := by
  refine ⟨_, _, rfl, rfl, fun h ↦ ?_, by decide, by decide, by decide⟩
  exact absurd ((h.exact_keys 1 0).mp (by decide)) (by decide)

end PoolRun
end EventStreamCore.Memory
