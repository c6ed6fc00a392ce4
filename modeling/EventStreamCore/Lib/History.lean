/-!
# Conditions on histories

General support, independent of any program. A history is a list of entries in the order in
which they were made, and a condition on an entry may look at all entries before it.
-/

namespace EventStreamCore.Lib

universe u

variable {α : Type u} {R : List α → α → Prop}

/-- Every new entry meets a condition on what precedes it, the past included. -/
def Historic (R : List α → α → Prop) (past : List α) : List α → Prop
  | [] => True
  | x :: xs => R past x ∧ Historic R (past ++ [x]) xs

/-- The entries of two parts, the second with the first in its past. -/
theorem historic_append {past xs ys : List α} :
    Historic R past (xs ++ ys) ↔ Historic R past xs ∧ Historic R (past ++ xs) ys := by
  induction xs generalizing past with
  | nil => simp [Historic]
  | cons x xs ih =>
    rw [List.cons_append, Historic, Historic, ih, List.append_assoc, List.singleton_append,
      and_assoc]

/-- The condition holds of an entry in the middle of a history and what precedes it. -/
theorem historic_iff {past xs : List α} :
    Historic R past xs ↔ ∀ pre x post, xs = pre ++ x :: post → R (past ++ pre) x := by
  induction xs generalizing past with
  | nil =>
    refine iff_of_true trivial fun pre x post h ↦ ?_
    cases pre <;> cases h
  | cons y ys ih =>
    rw [Historic, ih]
    constructor
    · rintro ⟨hy, hys⟩ pre x post h
      cases pre with
      | nil =>
        cases h
        rwa [List.append_nil]
      | cons z pre =>
        cases h
        rw [List.append_cons]
        exact hys pre x post rfl
    · intro h
      refine ⟨?_, fun pre x post hys ↦ ?_⟩
      · have hhead := h [] y ys rfl
        rwa [List.append_nil] at hhead
      · have htail := h (y :: pre) x post (by rw [hys, List.cons_append])
        rwa [List.append_cons] at htail

/-- A condition that more past cannot break holds of all new entries when it holds with the past
alone. -/
theorem historic_of_forall {past xs : List α}
    (mono : ∀ past more x, R past x → R (past ++ more) x) (h : ∀ x ∈ xs, R past x) :
    Historic R past xs := by
  rw [historic_iff]
  rintro pre x post rfl
  exact mono past pre x (h x (List.mem_append_right pre List.mem_cons_self))

end EventStreamCore.Lib
