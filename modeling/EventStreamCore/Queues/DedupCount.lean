import EventStreamCore.Queues.Dedup
import Mathlib.Algebra.BigOperators.Fin
import Mathlib.Algebra.Order.BigOperators.Group.Finset

/-!
# What a cleanup reports

The count of `LockFreeDeduplicator::cleanup_bucket_count`, `src/core/queues/dedup.cpp:80–151`,
and the totals that `cleanup` and `cleanup_all` log (`dedup.cpp:61–76`, `:159–167`). The second
phase counts what it unlinks. The first phase takes expired entries off the head and does not.
-/

namespace EventStreamCore.Queues.LockFreeDeduplicator

variable {n : Nat}

/-- Phase 2 counts every entry it unlinks. -/
theorem length_cleanupTail (nowMs : UInt64) (chain : List Entry) :
    (cleanupTail nowMs chain).2 + (cleanupTail nowMs chain).1.length = chain.length := by
  induction chain with
  | nil => rfl
  | cons curr next ih =>
    by_cases hexpired : curr.expired nowMs
    · simp only [cleanupTail, hexpired, if_true, List.length_cons]
      omega
    · simp only [cleanupTail, hexpired, Bool.false_eq_true, if_false, List.length_cons]
      omega

/-- What a bucket's cleanup does not count are the entries that phase 1 takes off the head. -/
theorem length_cleanupBucketCount (nowMs : UInt64) (chain : List Entry) :
    (chain.takeWhile (Entry.expired nowMs)).length + (cleanupBucketCount nowMs chain).2 +
      (cleanupBucketCount nowMs chain).1.length = chain.length := by
  have hsplit : (chain.takeWhile (Entry.expired nowMs)).length +
      (chain.dropWhile (Entry.expired nowMs)).length = chain.length := by
    rw [← List.length_append, List.takeWhile_append_dropWhile]
  rw [← hsplit, cleanupBucketCount, Nat.add_assoc]
  congr 1
  split
  · next hnil => rw [hnil]; rfl
  · next head tail hcons =>
    have htail := length_cleanupTail nowMs tail
    simp only [hcons, List.length_cons]
    omega

/-- A bucket's cleanup never reports more than it removed. -/
theorem cleanupBucketCount_le (nowMs : UInt64) (chain : List Entry) :
    (cleanupBucketCount nowMs chain).2 + (cleanupBucketCount nowMs chain).1.length ≤
      chain.length := by
  have hcount := length_cleanupBucketCount nowMs chain
  omega

/-- Does a chain not begin with an expired entry, so that phase 1 has nothing to do? -/
def headLive (nowMs : UInt64) (chain : List Entry) : Bool :=
  chain.head?.all fun head ↦ !head.expired nowMs

private theorem headLive_iff_takeWhile (nowMs : UInt64) (chain : List Entry) :
    headLive nowMs chain ↔ chain.takeWhile (Entry.expired nowMs) = [] := by
  cases chain with
  | nil => exact ⟨fun _ ↦ rfl, fun _ ↦ rfl⟩
  | cons head tail =>
    by_cases hexpired : head.expired nowMs
    · simp [headLive, hexpired]
    · simp [headLive, hexpired]

private theorem count_eq_removed_iff (nowMs : UInt64) (chain : List Entry) :
    (cleanupBucketCount nowMs chain).2 + (cleanupBucketCount nowMs chain).1.length =
      chain.length ↔ headLive nowMs chain := by
  have hcount := length_cleanupBucketCount nowMs chain
  rw [headLive_iff_takeWhile, ← List.length_eq_zero_iff]
  omega

private theorem total_eq_decrease_iff (d : LockFreeDeduplicator n) (nowMs : UInt64) :
    (d.cleanup nowMs).2 + (d.cleanup nowMs).1.approxSize = d.approxSize ↔
      ∀ i, headLive nowMs (d.buckets i) := by
  simp only [cleanup, approxSize, ← Fin.sum_univ_def]
  rw [← Finset.sum_add_distrib, Finset.sum_eq_sum_iff_of_le fun i _ ↦
    cleanupBucketCount_le nowMs (d.buckets i)]
  simp only [Finset.mem_univ, forall_const, count_eq_removed_iff]

/-- A bucket's cleanup returns how much shorter it made the chain exactly when the chain does
not begin with an expired entry; `cleanup` and `cleanup_all` log how much smaller they made the
table exactly when no chain does. -/
theorem cleanup_reports_removed_iff (nowMs : UInt64) (chain : List Entry)
    (d : LockFreeDeduplicator n) :
    ((cleanupBucketCount nowMs chain).2 + (cleanupBucketCount nowMs chain).1.length =
        chain.length ↔ headLive nowMs chain) ∧
      ((d.cleanup nowMs).2 + (d.cleanup nowMs).1.approxSize = d.approxSize ↔
        ∀ i, headLive nowMs (d.buckets i)) ∧
      (d.cleanupAll.2 + d.cleanupAll.1.approxSize = d.approxSize ↔
        ∀ i, headLive (UInt64.ofNat (2 ^ 64 - 1)) (d.buckets i)) :=
  ⟨count_eq_removed_iff nowMs chain, total_eq_decrease_iff d nowMs,
    total_eq_decrease_iff d (UInt64.ofNat (2 ^ 64 - 1))⟩

/-- A chain of one expired entry empties and the count is zero; so a table that held one id
longer than the window is emptied, and nothing is logged as removed. -/
theorem cleanup_unreported :
    cleanupBucketCount 3600001 [⟨7, 0⟩] = ([], 0) ∧
      ¬ (cleanupBucketCount 3600001 [⟨7, 0⟩]).2 +
          (cleanupBucketCount 3600001 [⟨7, 0⟩]).1.length = [(⟨7, 0⟩ : Entry)].length ∧
      (let d := ((initial : LockFreeDeduplicator 1).insert 7 0).1
       d.approxSize = 1 ∧ (d.cleanup 3600001).1.approxSize = 0 ∧ (d.cleanup 3600001).2 = 0 ∧
         d.cleanupAll.1.approxSize = 0 ∧ d.cleanupAll.2 = 0) := by
  decide

end EventStreamCore.Queues.LockFreeDeduplicator
