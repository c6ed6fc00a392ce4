import Mathlib.Algebra.BigOperators.Intervals
import Mathlib.Algebra.Order.BigOperators.Group.Finset

/-!
# Weights of the first values of a sequence

A counter that several threads move is what their places weigh together; a thread that moves
changes its own weight only.
-/

namespace EventStreamCore.Lib

universe u

variable {β : Type u} {w : β → Nat} {f g : Nat → β} {n : Nat}

/-- The weights of the first `n` values, added up. -/
def tally (w : β → Nat) (f : Nat → β) (n : Nat) : Nat := ∑ i ∈ Finset.range n, w (f i)

@[simp] theorem tally_zero (w : β → Nat) (f : Nat → β) : tally w f 0 = 0 := rfl

/-- One value more. -/
theorem tally_succ (w : β → Nat) (f : Nat → β) (n : Nat) :
    tally w f (n + 1) = tally w f n + w (f n) := Finset.sum_range_succ _ n

theorem tally_congr (h : ∀ i < n, w (f i) = w (g i)) : tally w f n = tally w g n := by
  apply Finset.sum_congr rfl
  intro i hi
  exact h i (Finset.mem_range.mp hi)

/-- No weights, no sum. -/
theorem tally_eq_zero (h : ∀ i < n, w (f i) = 0) : tally w f n = 0 := by
  apply Finset.sum_eq_zero
  intro i hi
  exact h i (Finset.mem_range.mp hi)

/-- Replacing one value. -/
theorem tally_update {i : Nat} (hi : i < n) (b : β) :
    tally w (Function.update f i b) n + w (f i) = tally w f n + w b := by
  induction n with
  | zero => omega
  | succ n ih =>
    rw [tally_succ, tally_succ]
    by_cases hlast : i = n
    · subst hlast
      have hrest : tally w (Function.update f i b) i = tally w f i := by
        apply tally_congr
        intro j hj
        rw [Function.update_of_ne (Nat.ne_of_lt hj)]
      rw [hrest, Function.update_self]
      omega
    · have hself : Function.update f i b n = f n := Function.update_of_ne (Ne.symm hlast) b f
      have hrest := ih (by omega)
      rw [hself]
      omega

/-- Replacing one value by another of the same weight. -/
theorem tally_update_of_eq {i : Nat} {b : β} (h : w b = w (f i)) :
    tally w (Function.update f i b) n = tally w f n := by
  apply tally_congr
  intro j _
  by_cases hj : j = i
  · subst hj
    rw [Function.update_self, h]
  · rw [Function.update_of_ne hj]

end EventStreamCore.Lib
