import Mathlib.Data.List.Basic

/-!
# Sorting by counting

General support, independent of any program. A list over finitely many keys is sorted by writing
each key, in the order of the keys, as often as it occurs. A map that keeps the order may be
applied before or after sorting.
-/

namespace EventStreamCore.Lib

universe u v

variable {α : Type u} {β : Type v}

/-- Each key as often as it is counted, in the order of the keys. -/
def replicateCounts (keys : List α) (count : α → Nat) : List α :=
  keys.flatMap fun key ↦ List.replicate (count key) key

section Counting

variable [DecidableEq α]

private theorem count_replicateCounts_of_notMem {keys : List α} {x : α} (count : α → Nat)
    (h : x ∉ keys) : (replicateCounts keys count).count x = 0 := by
  apply List.count_eq_zero_of_not_mem
  intro hx
  obtain ⟨key, hkey, hmem⟩ := List.mem_flatMap.mp hx
  exact h (List.eq_of_mem_replicate hmem ▸ hkey)

private theorem count_replicateCounts_of_mem {keys : List α} {x : α} (count : α → Nat)
    (hnodup : keys.Nodup) (h : x ∈ keys) : (replicateCounts keys count).count x = count x := by
  induction keys with
  | nil => exact absurd h List.not_mem_nil
  | cons key keys ih =>
    obtain ⟨hkey, hkeys⟩ := List.nodup_cons.mp hnodup
    rw [replicateCounts, List.flatMap_cons, List.count_append]
    change _ + (replicateCounts keys count).count x = _
    by_cases hx : x = key
    · subst hx
      rw [count_replicateCounts_of_notMem count hkey, List.count_replicate_self, Nat.add_zero]
    · have hmem : x ∈ keys := (List.mem_cons.mp h).resolve_left hx
      rw [ih hkeys hmem, List.count_replicate, if_neg (by simpa using Ne.symm hx), Nat.zero_add]

/-- Counting the keys of a list and writing them out rearranges the list. -/
theorem perm_replicateCounts {keys l : List α} (hnodup : keys.Nodup) (hkeys : ∀ x ∈ l, x ∈ keys) :
    (replicateCounts keys (l.count ·)).Perm l := by
  rw [List.perm_iff_count]
  intro x
  by_cases hx : x ∈ keys
  · exact count_replicateCounts_of_mem _ hnodup hx
  · have hl : x ∉ l := fun hmem ↦ hx (hkeys x hmem)
    rw [count_replicateCounts_of_notMem _ hx, List.count_eq_zero_of_not_mem hl]

end Counting

section Sorting

variable [LE α] [Std.IsLinearOrder α] [LE β] [Std.IsLinearOrder β]

private theorem pairwise_replicateCounts {keys : List α} (count : α → Nat)
    (hkeys : keys.Pairwise (· ≤ ·)) : (replicateCounts keys count).Pairwise (· ≤ ·) := by
  induction keys with
  | nil => exact List.Pairwise.nil
  | cons key keys ih =>
    obtain ⟨hfirst, hrest⟩ := List.pairwise_cons.mp hkeys
    rw [replicateCounts, List.flatMap_cons]
    apply List.pairwise_append.mpr
    refine ⟨List.pairwise_replicate.mpr (Or.inr (Std.le_refl key)), ih hrest, ?_⟩
    intro a ha b hb
    obtain ⟨key', hkey', hb'⟩ := List.mem_flatMap.mp hb
    rw [List.eq_of_mem_replicate ha, List.eq_of_mem_replicate hb']
    exact hfirst key' hkey'

variable [DecidableLE α] [DecidableLE β]

/-- A sorted list is in order. -/
theorem pairwise_mergeSort_le (l : List α) : l.mergeSort.Pairwise (· ≤ ·) := by
  have htrans (a b c : α) : decide (a ≤ b) → decide (b ≤ c) → decide (a ≤ c) := by
    simpa only [decide_eq_true_eq] using Std.le_trans
  have htotal (a b : α) : decide (a ≤ b) || decide (b ≤ a) := by
    simpa only [Bool.or_eq_true, decide_eq_true_eq] using Std.le_total
  simpa only [decide_eq_true_eq] using List.pairwise_mergeSort htrans htotal l

/-- A list in order that rearranges `l` is `l` sorted. -/
theorem eq_mergeSort {l l' : List α} (hperm : l'.Perm l) (hpairwise : l'.Pairwise (· ≤ ·)) :
    l' = l.mergeSort :=
  (hperm.trans (List.mergeSort_perm l _).symm).eq_of_pairwise
    (fun _ _ _ _ hle hge ↦ Std.le_antisymm hle hge) hpairwise (pairwise_mergeSort_le l)

/-- A map that keeps the order may be applied before or after sorting. -/
theorem mergeSort_map_of_le {f : α → β} (hmono : ∀ a b, a ≤ b → f a ≤ f b) (l : List α) :
    (l.map f).mergeSort = l.mergeSort.map f := by
  symm
  apply eq_mergeSort ((List.mergeSort_perm l _).map f)
  exact List.Pairwise.map f hmono (pairwise_mergeSort_le l)

/-- Later positions of a sorted list hold larger elements. -/
theorem getElem_mergeSort_le {l : List α} {i j : Nat} (hij : i ≤ j)
    (hj : j < l.mergeSort.length) : l.mergeSort[i] ≤ l.mergeSort[j] := by
  rcases Nat.eq_or_lt_of_le hij with rfl | hlt
  · exact Std.le_refl _
  · exact List.pairwise_iff_getElem.mp (pairwise_mergeSort_le l) i j (by omega) hj hlt

/-- Counting the keys of a list and writing them out in order sorts the list. -/
theorem replicateCounts_eq_mergeSort [DecidableEq α] {keys l : List α} (hnodup : keys.Nodup)
    (hpairwise : keys.Pairwise (· ≤ ·)) (hkeys : ∀ x ∈ l, x ∈ keys) :
    replicateCounts keys (l.count ·) = l.mergeSort :=
  eq_mergeSort (perm_replicateCounts hnodup hkeys) (pairwise_replicateCounts _ hpairwise)

end Sorting

end EventStreamCore.Lib
