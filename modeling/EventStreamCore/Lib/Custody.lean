import Mathlib.Algebra.Ring.Nat
import Mathlib.Data.List.Count
import Mathlib.Data.List.Nodup

/-!
# Custody of tickets

General support, independent of any program. A system hands out tickets and keeps each of
them somewhere; counting a ticket over all places shows that it is in exactly one of them.
-/

namespace EventStreamCore.Lib

universe u v

variable {π : Type u} {κ : Type v} [DecidableEq κ]

/-- How often a ticket occurs in a list of places. -/
def custody (places : List π) (contents : π → List κ) (k : κ) : Nat :=
  (places.map fun p ↦ (contents p).count k).sum

/-- A ticket that occurs nowhere in total occurs in no place. -/
theorem count_eq_zero_of_custody {places : List π} {contents : π → List κ} {k : κ}
    (h : custody places contents k = 0) {p : π} (hp : p ∈ places) : (contents p).count k = 0 := by
  induction places with
  | nil => cases hp
  | cons q places ih =>
    have hsplit : (contents q).count k + custody places contents k = 0 := h
    rcases List.mem_cons.mp hp with rfl | hp
    · omega
    · exact ih (by omega) hp

/-- A ticket that occurs once in total occurs once in one place and in no other. -/
theorem exists_place_of_custody {places : List π} {contents : π → List κ} {k : κ}
    (hnodup : places.Nodup) (h : custody places contents k = 1) :
    ∃ p ∈ places, (contents p).count k = 1 ∧
      ∀ q ∈ places, q ≠ p → (contents q).count k = 0 := by
  induction places with
  | nil => cases h
  | cons p places ih =>
    rw [List.nodup_cons] at hnodup
    have hsplit : (contents p).count k + custody places contents k = 1 := h
    by_cases hp : (contents p).count k = 1
    · have hrest : custody places contents k = 0 := by omega
      refine ⟨p, List.mem_cons_self, hp, ?_⟩
      intro q hq hne
      rcases List.mem_cons.mp hq with rfl | hq
      · exact absurd rfl hne
      · exact count_eq_zero_of_custody hrest hq
    · have hrest : custody places contents k = 1 := by omega
      obtain ⟨r, hr, hone, hothers⟩ := ih hnodup.2 hrest
      refine ⟨r, List.mem_cons_of_mem p hr, hone, ?_⟩
      intro q hq hne
      rcases List.mem_cons.mp hq with rfl | hq
      · omega
      · exact hothers q hq hne

/-- A ticket that occurs at most once stands in one position. -/
theorem position_unique {xs : List κ} {k : κ} (h : xs.count k ≤ 1) {i j : Nat}
    (hi : xs[i]? = some k) (hj : xs[j]? = some k) : i = j := by
  induction xs generalizing i j with
  | nil => cases hi
  | cons x xs ih =>
    have hlater : ∀ n, xs[n]? = some k → 1 ≤ xs.count k :=
      fun n hn ↦ List.count_pos_iff.mpr (List.mem_of_getElem? hn)
    rw [List.count_cons] at h
    cases i with
    | zero =>
      cases j with
      | zero => rfl
      | succ j =>
        cases hi
        have := hlater j hj
        rw [if_pos BEq.rfl] at h
        omega
    | succ i =>
      cases j with
      | zero =>
        cases hj
        have := hlater i hi
        rw [if_pos BEq.rfl] at h
        omega
      | succ j => rw [ih (by omega) hi hj]

end EventStreamCore.Lib
