import Mathlib.Algebra.Ring.Nat

/-!
# Bounded queues that give up their oldest elements

General support, independent of any program. A queue holds at most `limit` elements in the
order they came. What it gives up, to make room or on demand, is kept beside it in order.
-/

namespace EventStreamCore.Lib

universe u

/-- A bounded queue and all it has given up. -/
structure DropOldest (limit : Nat) (α : Type u) where
  held : List α
  held_le : held.length ≤ limit
  lost : List α

namespace DropOldest

variable {limit : Nat} {α : Type u}

/-- Nothing held and nothing given up. -/
def empty : DropOldest limit α := ⟨[], Nat.zero_le limit, []⟩

/-- A new element; a full queue gives up its oldest one for it. -/
def push [NeZero limit] (q : DropOldest limit α) (x : α) : DropOldest limit α :=
  if h : q.held.length < limit then
    ⟨q.held ++ [x], by rw [List.length_append]; exact h, q.lost⟩
  else
    ⟨q.held.drop 1 ++ [x], by
      have hle := q.held_le
      have hpos := Nat.pos_of_ne_zero (NeZero.ne limit)
      rw [List.length_append, List.length_drop, List.length_singleton]
      omega, q.lost ++ q.held.take 1⟩

/-- The oldest element is taken out, if there is one. -/
def pop (q : DropOldest limit α) : DropOldest limit α × Option α :=
  (⟨q.held.drop 1, by
    have hle := q.held_le
    rw [List.length_drop]
    omega, q.lost⟩, q.held.head?)

/-- Up to `n` of the oldest elements are given up. -/
def dropBatch (q : DropOldest limit α) (n : Nat) : DropOldest limit α :=
  ⟨q.held.drop n, by
    have hle := q.held_le
    rw [List.length_drop]
    omega, q.lost ++ q.held.take n⟩

variable [NeZero limit]

/-- With room, a new element is appended. -/
theorem push_of_lt {q : DropOldest limit α} (h : q.held.length < limit) (x : α) :
    (q.push x).held = q.held ++ [x] ∧ (q.push x).lost = q.lost := by
  rw [push, dif_pos h]
  exact ⟨rfl, rfl⟩

/-- Without room, the oldest element makes it. -/
theorem push_of_full {q : DropOldest limit α} (h : q.held.length = limit) (x : α) :
    (q.push x).held = q.held.drop 1 ++ [x] ∧ (q.push x).lost = q.lost ++ q.held.take 1 := by
  rw [push, dif_neg (by omega)]
  exact ⟨rfl, rfl⟩

/-- A new element makes nothing disappear. -/
theorem lost_append_held_push (q : DropOldest limit α) (x : α) :
    (q.push x).lost ++ (q.push x).held = q.lost ++ q.held ++ [x] := by
  by_cases h : q.held.length < limit
  · rw [(push_of_lt h x).1, (push_of_lt h x).2, List.append_assoc]
  · have hfull : q.held.length = limit := Nat.le_antisymm q.held_le (Nat.le_of_not_lt h)
    rw [(push_of_full hfull x).1, (push_of_full hfull x).2, List.append_assoc, List.append_assoc,
      ← List.append_assoc (q.held.take 1), List.take_append_drop]

theorem length_held_push (q : DropOldest limit α) (x : α) :
    (q.push x).held.length = min limit (q.held.length + 1) := by
  have hle := q.held_le
  have hpos := Nat.pos_of_ne_zero (NeZero.ne limit)
  by_cases h : q.held.length < limit
  · rw [(push_of_lt h x).1, List.length_append, List.length_singleton]
    omega
  · have hfull : q.held.length = limit := Nat.le_antisymm hle (Nat.le_of_not_lt h)
    rw [(push_of_full hfull x).1, List.length_append, List.length_drop, List.length_singleton]
    omega

private theorem foldl_push (q : DropOldest limit α) (xs : List α) :
    (xs.foldl push q).lost ++ (xs.foldl push q).held = q.lost ++ q.held ++ xs ∧
      (xs.foldl push q).held.length = min limit (q.held.length + xs.length) := by
  induction xs generalizing q with
  | nil =>
    have hle := q.held_le
    exact ⟨(List.append_nil _).symm, by simp only [List.foldl_nil, List.length_nil]; omega⟩
  | cons x xs ih =>
    obtain ⟨hall, hlen⟩ := ih (q.push x)
    rw [List.foldl_cons, List.length_cons]
    constructor
    · rw [hall, lost_append_held_push, List.append_assoc _ [x] xs, List.singleton_append]
    · rw [hlen, length_held_push]
      omega

/-- After elements have only been added, the queue holds the last ones of them. -/
theorem held_foldl_push_empty (xs : List α) :
    (xs.foldl push (empty : DropOldest limit α)).held = xs.drop (xs.length - limit) := by
  obtain ⟨hall, hlen⟩ := foldl_push (empty : DropOldest limit α) xs
  have hsuffix : (xs.foldl push (empty : DropOldest limit α)).held <:+ xs := ⟨_, hall⟩
  have hn : xs.length - min limit (0 + xs.length) = xs.length - limit := by omega
  rw [List.suffix_iff_eq_drop.mp hsuffix, hlen]
  exact congrArg (fun n ↦ xs.drop n) hn

end DropOldest
end EventStreamCore.Lib
