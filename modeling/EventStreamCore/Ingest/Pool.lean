import EventStreamCore.Events.Event
import EventStreamCore.Lib.Machine
import Mathlib.Data.List.Nodup
import Mathlib.Logic.Function.Basic

/-!
# The ingest event pool

`IngestEventPool`, `include/eventstream/core/ingest/pool.hpp:22–154`: the queue of pooled events
behind one mutex, the shutdown flag, and the deleter of the events handed out, which reads the
flag, resets the event without the mutex, and takes the mutex to read the flag again and return
the event. Events are named by the addresses the allocator chose for them.
-/

namespace EventStreamCore.Ingest
open EventStreamCore.Lib EventStreamCore.Events

/-- What a deleter did with its event. -/
inductive Fate where
  | pooled | deleted
deriving DecidableEq, Repr

/-- The events in memory, the queue of pooled ones and the shutdown flag. -/
structure IngestEventPool where
  heap : Nat → Option Event
  pool : List Nat
  shutdownFlag : Bool

namespace IngestEventPool

/-- Number of pre-allocated events. -/
def kPoolCapacity : Nat := 10000

/-- `new Event()` at an address not in use. -/
def newEvent (s : IngestEventPool) (node : Nat) : Option IngestEventPool :=
  match s.heap node with
  | some _ => none
  | none => some { s with heap := Function.update s.heap node (some Event.initial) }

/-- `delete e`. -/
def delete (s : IngestEventPool) (e : Nat) : IngestEventPool :=
  { s with heap := Function.update s.heap e none }

/-- `*e = event`. -/
def assign (s : IngestEventPool) (e : Nat) (event : Event) : IngestEventPool :=
  { s with heap := Function.update s.heap e (some event) }

/-- `pool.push(e)`. -/
def push (s : IngestEventPool) (e : Nat) : IngestEventPool := { s with pool := s.pool ++ [e] }

/-- `pool.front()` and `pool.pop()`, unless the pool is empty. -/
def pop (s : IngestEventPool) : Option (Nat × IngestEventPool) :=
  match s.pool with
  | [] => none
  | e :: pool => some (e, { s with pool })

/-- The locked part of the deleter, which reads the flag again; `pool.hpp:101–118`. -/
def giveBack (s : IngestEventPool) (e : Nat) : IngestEventPool × Fate :=
  if s.shutdownFlag then (s.delete e, .deleted)
  else if s.pool.length < kPoolCapacity then (s.push e, .pooled)
  else (s.delete e, .deleted)

end IngestEventPool

/-- Where the deleter of an event handed out stands: its last reference still exists, the flag
has been read as clear, or the event is reset. -/
inductive Stage where
  | held | resetting | returning
deriving DecidableEq, Repr

/-- How far the calls of `initialize` and `shutdown` are. The mutex is held by `initialize` while
it pushes events and by `shutdown` while it clears the pool. -/
inductive Lifecycle where
  | never
  | initializing (pushed : Nat)
  | up
  | shuttingDown
  | clearing
  | down
deriving DecidableEq, Repr

/-- Whether the mutex is free for a deleter or for `acquireEvent`. -/
def Lifecycle.unlocked : Lifecycle → Bool
  | .initializing _ => false
  | .clearing => false
  | _ => true

/-- The pool, the calls of `initialize` and `shutdown`, the calls of `acquireEvent` that found the
pool empty and have not allocated yet, and for the `k`th event handed out its address and stage
while it is not released, and what became of it. -/
structure PoolThreads where
  store : IngestEventPool
  lifecycle : Lifecycle
  allocating : Nat
  acquired : Nat
  handedOut : Nat → Option (Nat × Stage)
  fates : Nat → List Fate

/-- A step of a thread. The allocator chooses an address, and the caller of `acquireEvent` what
it writes to the event it holds. -/
inductive PoolStep where
  | initializeStart
  | initializePush (node : Nat)
  | initializeEnd
  | shutdownStart
  | shutdownLock
  | shutdownPop
  | shutdownEnd
  | acquireEvent
  | acquireNew (node : Nat)
  | write (k : Nat) (event : Event)
  | release (k : Nat)
  | reset (k : Nat)
  | giveBack (k : Nat)
deriving DecidableEq, Repr

namespace PoolThreads

/-- Hand out an event as the next one. -/
def handOut (s : PoolThreads) (e : Nat) (store : IngestEventPool) : PoolThreads :=
  { s with
    store
    acquired := s.acquired + 1
    handedOut := Function.update s.handedOut s.acquired (some (e, .held)) }

/-- Move the deleter of an event handed out to its next stage. -/
def setStage (s : PoolThreads) (k e : Nat) (stage : Stage) : PoolThreads :=
  { s with handedOut := Function.update s.handedOut k (some (e, stage)) }

/-- End the deleter of an event handed out. -/
def finish (s : PoolThreads) (k : Nat) (store : IngestEventPool) (fate : Fate) : PoolThreads :=
  { s with
    store
    handedOut := Function.update s.handedOut k none
    fates := Function.update s.fates k (s.fates k ++ [fate]) }

/-- One step. The first call is `initialize`, and `initialize` and `shutdown` alternate. -/
def step (s : PoolThreads) : PoolStep → Option PoolThreads
  | .initializeStart =>
    if s.lifecycle = .never ∨ s.lifecycle = .down then
      some { s with lifecycle := .initializing 0, store.shutdownFlag := false }
    else none
  | .initializePush node =>
    match s.lifecycle with
    | .initializing pushed =>
      if pushed < IngestEventPool.kPoolCapacity then
        (s.store.newEvent node).map fun store ↦
          { s with lifecycle := .initializing (pushed + 1), store := store.push node }
      else none
    | _ => none
  | .initializeEnd =>
    if s.lifecycle = .initializing IngestEventPool.kPoolCapacity then
      some { s with lifecycle := .up }
    else none
  | .shutdownStart =>
    if s.lifecycle = .up then
      some { s with lifecycle := .shuttingDown, store.shutdownFlag := true }
    else none
  | .shutdownLock =>
    if s.lifecycle = .shuttingDown then some { s with lifecycle := .clearing } else none
  | .shutdownPop =>
    if s.lifecycle = .clearing then
      s.store.pop.map fun (e, store) ↦ { s with store := store.delete e }
    else none
  | .shutdownEnd =>
    if s.lifecycle = .clearing ∧ s.store.pool = [] then some { s with lifecycle := .down }
    else none
  | .acquireEvent =>
    if s.lifecycle.unlocked ∧ s.lifecycle ≠ .never then
      match s.store.pop with
      | some (e, store) => some (s.handOut e store)
      | none => some { s with allocating := s.allocating + 1 }
    else none
  | .acquireNew node =>
    if s.allocating = 0 then none
    else
      (s.store.newEvent node).map fun store ↦
        { s.handOut node store with allocating := s.allocating - 1 }
  | .write k event =>
    match s.handedOut k with
    | some (e, .held) => some { s with store := s.store.assign e event }
    | _ => none
  | .release k =>
    match s.handedOut k with
    | some (e, .held) =>
      if s.store.shutdownFlag then some (s.finish k (s.store.delete e) .deleted)
      else some (s.setStage k e .resetting)
    | _ => none
  | .reset k =>
    match s.handedOut k with
    | some (e, .resetting) =>
      some { s.setStage k e .returning with store := s.store.assign e Event.initial }
    | _ => none
  | .giveBack k =>
    match s.handedOut k with
    | some (e, .returning) =>
      if s.lifecycle.unlocked then
        some (s.finish k (s.store.giveBack e).1 (s.store.giveBack e).2)
      else none
    | _ => none

/-- Before the first call. -/
def initial : PoolThreads where
  store := ⟨fun _ ↦ none, [], false⟩
  lifecycle := .never
  allocating := 0
  acquired := 0
  handedOut := fun _ ↦ none
  fates := fun _ ↦ []

/-- All interleavings. -/
def machine : Machine PoolThreads PoolStep := ⟨initial, step⟩

end PoolThreads

/-- Every event in memory is pooled once, or handed out once, or neither; pooled events are clean,
and so are those about to be returned. -/
structure IngestEventPool.Owned (s : IngestEventPool) (out : Nat → Option (Nat × Stage)) :
    Prop where
  nodup : s.pool.Nodup
  clean : ∀ e ∈ s.pool, s.heap e = some Event.initial
  live : ∀ k e stage, out k = some (e, stage) → ∃ event, s.heap e = some event
  returning : ∀ k e, out k = some (e, .returning) → s.heap e = some Event.initial
  apart : ∀ k e stage, out k = some (e, stage) → e ∉ s.pool
  own : ∀ k j e stage stage', out k = some (e, stage) → out j = some (e, stage') → k = j

namespace IngestEventPool.Owned

variable {s t : IngestEventPool} {out : Nat → Option (Nat × Stage)} {k e : Nat} {stage : Stage}

/-- An unused address is neither pooled nor handed out. -/
theorem fresh (h : Owned s out) (he : s.heap e = none) :
    e ∉ s.pool ∧ ∀ k stage, out k ≠ some (e, stage) := by
  constructor
  · intro hm
    cases he.symm.trans (h.clean e hm)
  · intro k stage hk
    obtain ⟨event, hevent⟩ := h.live k e stage hk
    cases he.symm.trans hevent

/-- An event at an earlier stage is nowhere about to be returned. -/
theorem not_returning (h : Owned s out) (hk : out k = some (e, stage)) (hs : stage ≠ .returning) :
    ∀ j, out j ≠ some (e, .returning) := by
  intro j hj
  obtain rfl := h.own j k e _ _ hj hk
  cases hj.symm.trans hk
  exact hs rfl

/-- Only the events and the pool count. -/
theorem congr (h : Owned s out) (hheap : t.heap = s.heap) (hpool : t.pool = s.pool) :
    Owned t out where
  nodup := hpool ▸ h.nodup
  clean := hpool ▸ hheap ▸ h.clean
  live := hheap ▸ h.live
  returning := hheap ▸ h.returning
  apart := hpool ▸ h.apart
  own := h.own

/-- A change of an event that is neither pooled nor about to be returned, and is handed out only
if it stays in memory, keeps the rest. -/
private theorem update (h : Owned s out) {value : Option Event} (hpool : e ∉ s.pool)
    (hout : ∀ k stage, out k = some (e, stage) → stage ≠ .returning ∧ value ≠ none) :
    Owned { s with heap := Function.update s.heap e value } out where
  nodup := h.nodup
  clean a ha := by
    have hne : a ≠ e := fun heq ↦ hpool (heq ▸ ha)
    exact (Function.update_of_ne hne _ _).trans (h.clean a ha)
  live k a stage hk := by
    by_cases ha : a = e
    · subst ha
      obtain ⟨event, hvalue⟩ := Option.ne_none_iff_exists'.mp (hout k stage hk).2
      exact ⟨event, (Function.update_self a _ _).trans hvalue⟩
    · obtain ⟨event, hevent⟩ := h.live k a stage hk
      exact ⟨event, (Function.update_of_ne ha _ _).trans hevent⟩
  returning k a hk := by
    have hne : a ≠ e := fun heq ↦ (hout k .returning (heq ▸ hk)).1 rfl
    exact (Function.update_of_ne hne _ _).trans (h.returning k a hk)
  apart := h.apart
  own := h.own

/-- Writing to an event that is neither pooled nor about to be returned. -/
theorem assign (h : Owned s out) {event : Event} (hpool : e ∉ s.pool)
    (hout : ∀ k, out k ≠ some (e, .returning)) : Owned (s.assign e event) out := by
  apply h.update hpool
  rintro k stage hk
  refine ⟨?_, Option.some_ne_none event⟩
  rintro rfl
  exact hout k hk

/-- Deleting an event that is neither pooled nor handed out. -/
theorem delete (h : Owned s out) (hpool : e ∉ s.pool)
    (hout : ∀ k stage, out k ≠ some (e, stage)) : Owned (s.delete e) out :=
  h.update hpool fun k stage hk ↦ absurd hk (hout k stage)

/-- Pushing a clean event that is neither pooled nor handed out. -/
theorem push (h : Owned s out) (hpool : e ∉ s.pool) (hout : ∀ k stage, out k ≠ some (e, stage))
    (hclean : s.heap e = some Event.initial) : Owned (s.push e) out where
  nodup := by
    rw [IngestEventPool.push, List.nodup_append]
    refine ⟨h.nodup, List.nodup_singleton e, fun a ha b hb ↦ ?_⟩
    rw [List.mem_singleton.mp hb]
    exact fun heq ↦ hpool (heq ▸ ha)
  clean a ha := by
    rcases List.mem_append.mp ha with ha | ha
    · exact h.clean a ha
    · exact List.mem_singleton.mp ha ▸ hclean
  live := h.live
  returning := h.returning
  apart k a stage hk hm := by
    rcases List.mem_append.mp hm with hm | hm
    · exact h.apart k a stage hk hm
    · exact hout k stage (List.mem_singleton.mp hm ▸ hk)
  own := h.own

/-- The front of the pool is clean, and once taken it is neither pooled nor handed out. -/
theorem pop (h : Owned s out) (hs : s.pop = some (e, t)) :
    Owned t out ∧ e ∉ t.pool ∧ (∀ k stage, out k ≠ some (e, stage)) ∧
      t.heap e = some Event.initial := by
  unfold IngestEventPool.pop at hs
  split at hs
  · cases hs
  · next a pool hpool =>
    cases hs
    have hmem : e ∈ s.pool := hpool ▸ List.mem_cons_self
    have hrest : ∀ b ∈ pool, b ∈ s.pool := fun b hb ↦ hpool ▸ List.mem_cons_of_mem e hb
    have hnodup := h.nodup
    rw [hpool, List.nodup_cons] at hnodup
    refine ⟨⟨hnodup.2, fun b hb ↦ h.clean b (hrest b hb), h.live, h.returning, ?_, h.own⟩,
      hnodup.1, fun k stage hk ↦ h.apart k e stage hk hmem, h.clean e hmem⟩
    exact fun k b stage hk hb ↦ h.apart k b stage hk (hrest b hb)

/-- Handing out a live event that is neither pooled nor handed out, or moving the deleter of one
handed out to another stage. -/
theorem hold (h : Owned s out) (hpool : e ∉ s.pool)
    (hout : ∀ j stage, out j = some (e, stage) → j = k) (hlive : ∃ event, s.heap e = some event)
    (hclean : stage = .returning → s.heap e = some Event.initial) :
    Owned s (Function.update out k (some (e, stage))) where
  nodup := h.nodup
  clean := h.clean
  live j a stage' hj := by
    by_cases hjk : j = k
    · subst hjk
      rw [Function.update_self] at hj
      cases hj
      exact hlive
    · rw [Function.update_of_ne hjk] at hj
      exact h.live j a stage' hj
  returning j a hj := by
    by_cases hjk : j = k
    · subst hjk
      rw [Function.update_self] at hj
      cases hj
      exact hclean rfl
    · rw [Function.update_of_ne hjk] at hj
      exact h.returning j a hj
  apart j a stage' hj := by
    by_cases hjk : j = k
    · subst hjk
      rw [Function.update_self] at hj
      cases hj
      exact hpool
    · rw [Function.update_of_ne hjk] at hj
      exact h.apart j a stage' hj
  own i j a stage' stage'' hi hj := by
    by_cases hik : i = k
    · by_cases hjk : j = k
      · exact hik.trans hjk.symm
      · rw [hik, Function.update_self] at hi
        rw [Function.update_of_ne hjk] at hj
        cases hi
        exact absurd (hout j _ hj) hjk
    · rw [Function.update_of_ne hik] at hi
      by_cases hjk : j = k
      · rw [hjk, Function.update_self] at hj
        cases hj
        exact absurd (hout i _ hi) hik
      · rw [Function.update_of_ne hjk] at hj
        exact h.own i j a _ _ hi hj

/-- Ending the deleter of an event, which is then neither pooled nor handed out. -/
theorem drop (h : Owned s out) (hk : out k = some (e, stage)) :
    Owned s (Function.update out k none) ∧ e ∉ s.pool ∧
      ∀ j stage, Function.update out k none j ≠ some (e, stage) := by
  have hsub : ∀ j p, Function.update out k none j = some p → j ≠ k ∧ out j = some p := by
    intro j p hj
    by_cases hjk : j = k
    · rw [hjk, Function.update_self] at hj
      cases hj
    · exact ⟨hjk, (Function.update_of_ne hjk _ _).symm.trans hj⟩
  refine ⟨⟨h.nodup, h.clean, ?_, ?_, ?_, ?_⟩, h.apart k e stage hk, ?_⟩
  · exact fun j a stage hj ↦ h.live j a stage (hsub j _ hj).2
  · exact fun j a hj ↦ h.returning j a (hsub j _ hj).2
  · exact fun j a stage hj ↦ h.apart j a stage (hsub j _ hj).2
  · exact fun i j a _ _ hi hj ↦ h.own i j a _ _ (hsub i _ hi).2 (hsub j _ hj).2
  · exact fun j stage' hj ↦ (hsub j _ hj).1 (h.own j k e _ _ (hsub j _ hj).2 hk)

end IngestEventPool.Owned

/-- The pool fits its capacity and the calls of `initialize` and `shutdown`: it is empty before
the first `initialize` and after a `shutdown`, holds what `initialize` has pushed so far, and the
flag is set from the start of a `shutdown`. -/
structure IngestEventPool.Phased (c : Lifecycle) (s : IngestEventPool) : Prop where
  length_le : s.pool.length ≤ kPoolCapacity
  empty : c = .never ∨ c = .down → s.pool = []
  pushed : ∀ n, c = .initializing n → s.pool.length = n
  flag : c = .shuttingDown ∨ c = .clearing ∨ c = .down → s.shutdownFlag = true

namespace IngestEventPool

variable {s t : IngestEventPool} {c : Lifecycle} {e : Nat}

/-- An allocation takes an unused address for a clean event. -/
theorem newEvent_eq_some {node : Nat} (hs : s.newEvent node = some t) :
    s.heap node = none ∧ t = s.assign node Event.initial := by
  unfold newEvent at hs
  split at hs
  · cases hs
  · next hnone =>
    cases hs
    exact ⟨hnone, rfl⟩

/-- Only the pool and the flag count for the phase. -/
theorem Phased.congr (h : Phased c s) (hpool : t.pool = s.pool)
    (hflag : t.shutdownFlag = s.shutdownFlag) : Phased c t where
  length_le := hpool ▸ h.length_le
  empty hc := hpool ▸ h.empty hc
  pushed n hc := hpool ▸ h.pushed n hc
  flag hc := hflag ▸ h.flag hc

/-- Taking the front of the pool while `initialize` is not at work. -/
theorem Phased.pop (h : Phased c s) (hc : ∀ n, c ≠ .initializing n) (hs : s.pop = some (e, t)) :
    Phased c t := by
  unfold IngestEventPool.pop at hs
  split at hs
  · cases hs
  · next a pool hpool =>
    cases hs
    refine ⟨?_, fun hempty ↦ ?_, fun n hn ↦ absurd hn (hc n), h.flag⟩
    · have hlength := h.length_le
      rw [hpool, List.length_cons] at hlength
      exact Nat.le_of_succ_le hlength
    · cases hpool.symm.trans (h.empty hempty)

/-- The locked part of the deleter. -/
theorem Phased.giveBack (h : Phased c s) (hc : c.unlocked) (hnever : c ≠ .never) :
    Phased c (s.giveBack e).1 := by
  unfold IngestEventPool.giveBack
  split
  · exact h.congr rfl rfl
  · next hflag =>
    split
    · next hroom =>
      refine ⟨?_, fun hempty ↦ ?_, ?_, h.flag⟩
      · rw [push, List.length_append]
        exact hroom
      · exact absurd (h.flag (.inr (.inr (hempty.resolve_left hnever)))) hflag
      · rintro n rfl
        cases hc
    · exact h.congr rfl rfl

/-- The locked part of the deleter pools its event, or deletes it. -/
theorem giveBack_cases (s : IngestEventPool) (e : Nat) :
    s.giveBack e = (s.delete e, .deleted) ∨ s.giveBack e = (s.push e, .pooled) := by
  unfold giveBack
  split
  · exact .inl rfl
  · split
    · exact .inr rfl
    · exact .inl rfl

end IngestEventPool

end EventStreamCore.Ingest
