import Mathlib.Algebra.Ring.Nat
import Mathlib.Logic.Function.Basic

/-!
# The deduplication table

`LockFreeDeduplicator`, `include/eventstream/core/queues/dedup.hpp:12–81` and
`src/core/queues/dedup.cpp:6–158`, used by one thread: a fixed number of buckets, each a chain
of entries with the newest first. Without a second thread every compare-exchange succeeds at
its first attempt.
-/

namespace EventStreamCore.Queues

/-- A chain entry; its `next` pointer is the rest of the chain. -/
structure Entry where
  id : UInt32
  timestampMs : UInt64
deriving DecidableEq, Repr

/-- `IDEMPOTENT_WINDOW_MS`, one hour. -/
def idempotentWindowMs : UInt64 := 3600000

/-- `DEFAULT_BUCKETS`. -/
def defaultBuckets : Nat := 4096

instance : NeZero defaultBuckets := ⟨by decide⟩

/-- Is an entry older than the window? A clock that went back makes the age zero. -/
def Entry.expired (nowMs : UInt64) (entry : Entry) : Bool :=
  let ageMs := if nowMs ≥ entry.timestampMs then nowMs - entry.timestampMs else 0
  ageMs > idempotentWindowMs

/-- The table: one chain for each bucket. -/
structure LockFreeDeduplicator (n : Nat) where
  buckets : Fin n → List Entry

namespace LockFreeDeduplicator

variable {n : Nat} [NeZero n]

/-- A new table. -/
def initial : LockFreeDeduplicator n := ⟨fun _ ↦ []⟩

/-- `event_id % buckets_.size()`. -/
def bucketIdx (eventId : UInt32) : Fin n := Fin.ofNat n eventId.toNat

/-- `is_duplicate`; it does not read its clock argument. -/
def isDuplicate (d : LockFreeDeduplicator n) (eventId : UInt32) : Bool :=
  (d.buckets (bucketIdx eventId)).any fun entry ↦ entry.id == eventId

/-- `insert`, with its answer. -/
def insert (d : LockFreeDeduplicator n) (eventId : UInt32) (nowMs : UInt64) :
    LockFreeDeduplicator n × Bool :=
  let head := d.buckets (bucketIdx eventId)
  if head.any fun entry ↦ entry.id == eventId then (d, false)
  else (⟨Function.update d.buckets (bucketIdx eventId) (⟨eventId, nowMs⟩ :: head)⟩, true)

/-- Phase 2 of `cleanup_bucket_count` behind a head that stays, with the number removed. -/
def cleanupTail (nowMs : UInt64) : List Entry → List Entry × Nat
  | [] => ([], 0)
  | curr :: next =>
    let (kept, removed) := cleanupTail nowMs next
    if curr.expired nowMs then (kept, removed + 1) else (curr :: kept, removed)

/-- `cleanup_bucket_count`: phase 1 takes expired entries off the head without counting. -/
def cleanupBucketCount (nowMs : UInt64) (chain : List Entry) : List Entry × Nat :=
  match chain.dropWhile (Entry.expired nowMs) with
  | [] => ([], 0)
  | head :: tail =>
    let (kept, removed) := cleanupTail nowMs tail
    (head :: kept, removed)

/-- `cleanup`, with the total it logs. -/
def cleanup (d : LockFreeDeduplicator n) (nowMs : UInt64) : LockFreeDeduplicator n × Nat :=
  (⟨fun i ↦ (cleanupBucketCount nowMs (d.buckets i)).1⟩,
    ((List.finRange n).map fun i ↦ (cleanupBucketCount nowMs (d.buckets i)).2).sum)

/-- `cleanup_all`: a cleanup at `UINT64_MAX`. -/
def cleanupAll (d : LockFreeDeduplicator n) : LockFreeDeduplicator n × Nat :=
  d.cleanup (UInt64.ofNat (2 ^ 64 - 1))

/-- `approx_size`. -/
def approxSize (d : LockFreeDeduplicator n) : Nat :=
  ((List.finRange n).map fun i ↦ (d.buckets i).length).sum

/-- A new table knows no id. -/
theorem isDuplicate_initial (eventId : UInt32) :
    (initial : LockFreeDeduplicator n).isDuplicate eventId = false := rfl

/-- `insert` looks the id up first. -/
theorem insert_eq (d : LockFreeDeduplicator n) (eventId : UInt32) (nowMs : UInt64) :
    d.insert eventId nowMs = if d.isDuplicate eventId then (d, false)
      else (⟨Function.update d.buckets (bucketIdx eventId)
        (⟨eventId, nowMs⟩ :: d.buckets (bucketIdx eventId))⟩, true) := rfl

/-- After `insert` the table knows exactly one more id. -/
theorem isDuplicate_insert (d : LockFreeDeduplicator n) (eventId other : UInt32)
    (nowMs : UInt64) :
    (d.insert eventId nowMs).1.isDuplicate other = (eventId == other || d.isDuplicate other) := by
  rw [insert_eq]
  by_cases hknown : d.isDuplicate eventId
  · rw [if_pos hknown]
    by_cases he : eventId = other
    · subst he
      rw [beq_self_eq_true, Bool.true_or]
      exact hknown
    · rw [beq_false_of_ne he, Bool.false_or]
  · rw [if_neg hknown]
    by_cases hb : bucketIdx (n := n) other = bucketIdx eventId
    · simp only [isDuplicate, hb, Function.update_self, List.any_cons]
    · have he : eventId ≠ other := by
        rintro rfl
        exact hb rfl
      simp only [isDuplicate, Function.update_of_ne hb, beq_false_of_ne he, Bool.false_or]

private theorem cleanupTail_eq_filter (nowMs : UInt64) (chain : List Entry) :
    (cleanupTail nowMs chain).1 = chain.filter fun entry ↦ !entry.expired nowMs := by
  induction chain with
  | nil => rfl
  | cons curr next ih =>
    by_cases hexpired : curr.expired nowMs
    · simp only [cleanupTail, hexpired, if_true, ih, List.filter_cons, Bool.not_true,
        Bool.false_eq_true, if_false]
    · simp only [cleanupTail, hexpired, ih, List.filter_cons, Bool.not_false, Bool.false_eq_true,
        if_false, if_true]

/-- The two phases of a bucket's cleanup together keep exactly the entries that have not
expired, in chain order. -/
theorem cleanupBucketCount_eq_filter (nowMs : UInt64) (chain : List Entry) :
    (cleanupBucketCount nowMs chain).1 = chain.filter fun entry ↦ !entry.expired nowMs := by
  unfold cleanupBucketCount
  induction chain with
  | nil => rfl
  | cons head tail ih =>
    by_cases hexpired : head.expired nowMs
    · rw [List.dropWhile_cons_of_pos hexpired, List.filter_cons_of_neg (by rw [hexpired]; decide)]
      exact ih
    · have hlive : (!head.expired nowMs) = true := by
        rw [Bool.eq_false_iff.mpr hexpired]
        rfl
      rw [List.dropWhile_cons_of_neg hexpired, List.filter_cons, if_pos hlive]
      simp only [cleanupTail_eq_filter]

/-- `cleanup` adds no id. -/
theorem isDuplicate_of_cleanup {d : LockFreeDeduplicator n} {eventId : UInt32} {nowMs : UInt64}
    (h : (d.cleanup nowMs).1.isDuplicate eventId) : d.isDuplicate eventId := by
  obtain ⟨entry, hmem, hid⟩ := List.any_eq_true.mp h
  have hchain : entry ∈ (d.buckets (bucketIdx eventId)).filter
      fun entry ↦ !entry.expired nowMs := by
    rw [← cleanupBucketCount_eq_filter]
    exact hmem
  exact List.any_eq_true.mpr ⟨entry, (List.mem_filter.mp hchain).1, hid⟩

end LockFreeDeduplicator
end EventStreamCore.Queues
