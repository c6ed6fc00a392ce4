import Mathlib.Data.List.Nodup
import Mathlib.Logic.Function.Basic
import Mathlib.Logic.Relation

/-!
# Linked lists in memory

General support, independent of any program. A list of addresses is linked when every next
pointer leads to the next address and the last one to nothing; whoever follows the pointers
from its start meets exactly these addresses. The lemmas say what a write to one pointer does
to all the linked lists of a memory, those that other threads are following included.
-/

namespace EventStreamCore.Lib

universe u v

variable {α : Type u}

/-- The pointers `next` lead from `p` through the addresses `l` to a null pointer. -/
def Linked (next : α → Option α) : Option α → List α → Prop
  | p, [] => p = none
  | p, a :: l => p = some a ∧ Linked next (next a) l

namespace Linked

variable {next next' : α → Option α} {p : Option α} {a b c : α} {l l' : List α}

/-- The pointers determine the list. -/
theorem unique (h : Linked next p l) (h' : Linked next p l') : l = l' := by
  induction l generalizing p l' with
  | nil =>
    cases l' with
    | nil => rfl
    | cons b l' =>
      rw [Linked] at h
      rw [h] at h'
      cases h'.1
  | cons a l ih =>
    cases l' with
    | nil =>
      rw [Linked] at h'
      rw [h'] at h
      cases h.1
    | cons b l' =>
      obtain rfl := Option.some.inj (h.1.symm.trans h'.1)
      rw [ih h.2 h'.2]

/-- A pointer to an address leads to a list that starts there. -/
theorem exists_cons (h : Linked next (some a) l) :
    ∃ l', l = a :: l' ∧ Linked next (next a) l' := by
  cases l with
  | nil => cases h
  | cons b l' =>
    cases h.1
    exact ⟨l', rfl, h.2⟩

/-- The address a pointer leads to is met. -/
theorem head_mem (h : Linked next (some a) l) : a ∈ l := by
  obtain ⟨l', rfl, -⟩ := h.exists_cons
  exact List.mem_cons_self

/-- What follows an address is what its pointer leads to. -/
theorem tail (h : Linked next p (l ++ a :: l')) : Linked next (next a) l' := by
  induction l generalizing p with
  | nil => exact h.2
  | cons b l ih => exact ih h.2

/-- No address is met twice. -/
theorem nodup (h : Linked next p l) : l.Nodup := by
  induction l generalizing p with
  | nil => exact List.nodup_nil
  | cons a l ih =>
    refine List.nodup_cons.mpr ⟨fun hmem ↦ ?_, ih h.2⟩
    -- a second visit would lead through the same addresses once more
    obtain ⟨l₁, l₂, rfl⟩ := List.append_of_mem hmem
    have hlen := congrArg List.length (h.2.unique (tail h.2))
    rw [List.length_append, List.length_cons] at hlen
    omega

/-- Only the pointers of the addresses met matter. -/
theorem congr (h : Linked next p l) (hnext : ∀ a ∈ l, next' a = next a) : Linked next' p l := by
  induction l generalizing p with
  | nil => exact h
  | cons a l ih =>
    refine ⟨h.1, ?_⟩
    rw [hnext a List.mem_cons_self]
    exact ih h.2 fun b hb ↦ hnext b (List.mem_cons_of_mem _ hb)

/-- A list under other names: each pointer follows the name of its address. -/
theorem map {β : Type v} {f : α → β} {next' : β → Option β} (h : Linked next p l)
    (hnext : ∀ a ∈ l, next' (f a) = (next a).map f) : Linked next' (p.map f) (l.map f) := by
  induction l generalizing p with
  | nil =>
    rw [Linked] at h
    rw [h]
    rfl
  | cons a l ih =>
    refine ⟨by rw [h.1, Option.map_some], ?_⟩
    rw [hnext a List.mem_cons_self]
    exact ih h.2 fun b hb ↦ hnext b (List.mem_cons_of_mem a hb)

/-- Every address met is reached along the pointers. -/
theorem reflTransGen (h : Linked next (some a) l) (hb : b ∈ l) :
    Relation.ReflTransGen (fun x y ↦ next x = some y) a b := by
  induction l generalizing a with
  | nil => cases hb
  | cons c l ih =>
    obtain rfl := Option.some.inj h.1
    obtain rfl | hb := List.mem_cons.mp hb
    · exact .refl
    · cases hnext : next a with
      | none =>
        have htail := h.2
        rw [hnext] at htail
        cases l with
        | nil => cases hb
        | cons d l => cases htail.1
      | some d => exact .head hnext (ih (hnext ▸ h.2) hb)

/-- An address that is not last is followed by the one its pointer leads to. -/
theorem mem_next (h : Linked next p l) (ha : a ∈ l) (hb : next a = some b) : b ∈ l := by
  obtain ⟨l₁, l₂, rfl⟩ := List.append_of_mem ha
  have htail := h.tail
  rw [hb] at htail
  exact List.mem_append_right _ (List.mem_cons_of_mem _ htail.head_mem)

/-- No pointer leads back to its own address. -/
theorem ne_next (h : Linked next p l) (ha : a ∈ l) (hb : next a = some b) : a ≠ b := by
  rintro rfl
  obtain ⟨l₁, l₂, rfl⟩ := List.append_of_mem ha
  have htail := h.tail
  rw [hb] at htail
  have hnodup := (List.nodup_append.mp h.nodup).2.1
  exact (List.nodup_cons.mp hnodup).1 htail.head_mem

/-- A new first address. -/
theorem cons (h : Linked next p l) (ha : next a = p) : Linked next (some a) (a :: l) :=
  ⟨rfl, ha ▸ h⟩

variable [DecidableEq α]

/-- A write to an address that is not met. -/
theorem update_of_notMem (h : Linked next p l) (ha : a ∉ l) (q : Option α) :
    Linked (Function.update next a q) p l := by
  apply h.congr
  intro b hb
  rw [Function.update_of_ne]
  rintro rfl
  exact ha hb

/-- Leading the pointer of `a` past its successor `b` takes `b`, and nothing else, out of every
list that meets `a`, and changes no other list. -/
theorem unlink (h : Linked next p l) (hab : next a = some b) :
    ∃ l', Linked (Function.update next a (next b)) p l' ∧ l'.Sublist l ∧
      (∀ c ∈ l, c ≠ b → c ∈ l') ∧ (a ∈ l → b ∉ l') := by
  induction l generalizing p with
  | nil => exact ⟨[], h, List.Sublist.refl [], fun _ hc ↦ (by cases hc), fun ha ↦ (by cases ha)⟩
  | cons c l ih =>
    have hnodup := h.nodup
    by_cases hc : c = a
    · subst hc
      -- the successor is first in what follows, and is skipped
      obtain ⟨hp, htail⟩ := h
      rw [hab] at htail
      obtain ⟨l, rfl, hrest⟩ := htail.exists_cons
      have hnotMem : c ∉ l := fun hmem ↦
        (List.nodup_cons.mp hnodup).1 (List.mem_cons_of_mem _ hmem)
      refine ⟨c :: l, ⟨hp, ?_⟩, (List.sublist_cons_self b l).cons_cons c, ?_, ?_⟩
      · rw [Function.update_self]
        exact hrest.update_of_notMem hnotMem _
      · intro e he hne
        obtain rfl | he := List.mem_cons.mp he
        · exact List.mem_cons_self
        · exact List.mem_cons_of_mem _ ((List.mem_cons.mp he).resolve_left hne)
      · intro _ hmem
        obtain ⟨hfirst, hsecond⟩ := List.nodup_cons.mp hnodup
        obtain rfl | hmem := List.mem_cons.mp hmem
        · exact hfirst List.mem_cons_self
        · exact (List.nodup_cons.mp hsecond).1 hmem
    · obtain ⟨l', hl', hsub, hkeep, hout⟩ := ih h.2
      refine ⟨c :: l', ⟨h.1, ?_⟩, hsub.cons_cons c, ?_, ?_⟩
      · rw [Function.update_of_ne hc]
        exact hl'
      · intro e he hne
        obtain rfl | he := List.mem_cons.mp he
        · exact List.mem_cons_self
        · exact List.mem_cons_of_mem _ (hkeep e he hne)
      · intro ha hmem
        have hrest : a ∈ l := (List.mem_cons.mp ha).resolve_left fun he ↦ hc he.symm
        obtain rfl | hmem := List.mem_cons.mp hmem
        · exact (List.nodup_cons.mp hnodup).1 (mem_next h.2 hrest hab)
        · exact hout hrest hmem

end Linked
end EventStreamCore.Lib
