import Mathlib.Algebra.Ring.Nat
import Mathlib.Logic.Function.Basic

/-!
# Logs seen through a circular array

General support, independent of any program. Position `i` of an unbounded log lives in
slot `i % n` of an array of `n` slots; a window of fewer than `n` positions is then
stored without collision, and its two ends differ modulo `n` unless it is empty.
-/

namespace EventStreamCore.Lib

universe u

variable {α : Type u}

/-- A prefix of a log is extended by the log's next position. -/
theorem concat_isPrefix {xs log : List α} {x : α} (h : xs <+: log)
    (hx : log[xs.length]? = some x) : xs ++ [x] <+: log := by
  rw [List.prefix_iff_eq_take] at h
  rw [List.prefix_iff_eq_take, List.length_append, List.length_singleton, List.take_add_one,
    hx, ← h]
  rfl

variable {n : Nat} [NeZero n]

/-- The slots hold the positions of `log` from `lo` on, and one slot stays free. -/
structure Circular (slots : Fin n → α) (log : List α) (lo : Nat) : Prop where
  lo_le : lo ≤ log.length
  fits : log.length < lo + n
  stored : ∀ i, lo ≤ i → i < log.length → log[i]? = some (slots (Fin.ofNat n i))

namespace Circular

omit [NeZero n] in
private theorem mod_inj {a b : Nat} (hab : a ≤ b) (hb : b < a + n) (h : a % n = b % n) :
    a = b := by
  have hd : n ∣ b - a := Nat.dvd_of_mod_eq_zero (Nat.sub_mod_eq_zero_of_mod_eq h.symm)
  have hz : b - a = 0 := Nat.eq_zero_of_dvd_of_lt hd (by omega)
  omega

/-- Within one turn of the array two positions share a slot only if they are equal. -/
theorem ofNat_eq_ofNat_iff {a b : Nat} (hab : a ≤ b) (hb : b < a + n) :
    Fin.ofNat n a = Fin.ofNat n b ↔ a = b := by
  constructor
  · intro h
    exact mod_inj hab hb (congrArg Fin.val h)
  · intro h
    rw [h]

/-- The array is one short of a full turn exactly when its ends are about to meet. -/
theorem ofNat_succ_eq_ofNat_iff {lo hi : Nat} (hlo : lo ≤ hi) (hhi : hi < lo + n) :
    Fin.ofNat n (hi + 1) = Fin.ofNat n lo ↔ hi + 1 = lo + n := by
  have hturn : Fin.ofNat n lo = Fin.ofNat n (lo + n) := by
    apply Fin.ext
    exact (Nat.add_mod_right lo n).symm
  rw [hturn]
  exact ofNat_eq_ofNat_iff (by omega) (by omega)

/-- The number of positions between two ends, computed from their slots. -/
theorem distance_ofNat {lo hi : Nat} (hlo : lo ≤ hi) (hhi : hi < lo + n) :
    (if hi % n ≥ lo % n then hi % n - lo % n else n + hi % n - lo % n) = hi - lo := by
  have hn : 0 < n := Nat.pos_of_ne_zero (NeZero.ne n)
  have hl := Nat.div_add_mod lo n
  have hh := Nat.div_add_mod hi n
  have hl' := Nat.mod_lt lo hn
  have hh' := Nat.mod_lt hi hn
  -- `hi` is in the same turn as `lo` or in the next one.
  have hq : hi / n = lo / n ∨ hi / n = lo / n + 1 := by
    have h1 : lo / n ≤ hi / n := Nat.div_le_div_right hlo
    have h2 : hi / n ≤ (lo + n) / n := Nat.div_le_div_right (by omega)
    rw [Nat.add_div_right lo hn] at h2
    omega
  rcases hq with hq | hq
  · rw [hq] at hh
    split <;> omega
  · rw [hq, Nat.mul_succ] at hh
    split <;> omega

variable {slots : Fin n → α} {log : List α} {lo : Nat}

/-- An empty log needs nothing of the slots. -/
theorem empty (slots : Fin n → α) : Circular slots [] 0 where
  lo_le := Nat.le_refl 0
  fits := by
    have := Nat.pos_of_ne_zero (NeZero.ne n)
    simpa using this
  stored i _ h := absurd h (Nat.not_lt_zero i)

/-- The slot behind the window is free for writing. -/
theorem write (h : Circular slots log lo) (v : α) :
    Circular (Function.update slots (Fin.ofNat n log.length) v) log lo where
  lo_le := h.lo_le
  fits := h.fits
  stored i hlo hi := by
    have hne : Fin.ofNat n i ≠ Fin.ofNat n log.length := by
      intro he
      have hfits := h.fits
      have := (ofNat_eq_ofNat_iff (Nat.le_of_lt hi) (by omega)).mp he
      omega
    rw [Function.update_of_ne hne]
    exact h.stored i hlo hi

/-- A value written behind the window joins it when there is room for one more. -/
theorem publish (h : Circular slots log lo) (room : log.length + 1 < lo + n) {v : α}
    (hv : slots (Fin.ofNat n log.length) = v) : Circular slots (log ++ [v]) lo where
  lo_le := by
    have := h.lo_le
    rw [List.length_append, List.length_singleton]
    omega
  fits := by
    rw [List.length_append, List.length_singleton]
    exact room
  stored i hlo hi := by
    rw [List.length_append, List.length_singleton] at hi
    by_cases he : i = log.length
    · rw [he, List.getElem?_concat_length, hv]
    · rw [List.getElem?_append_left (by omega)]
      exact h.stored i hlo (by omega)

/-- The oldest position can be given up. -/
theorem release (h : Circular slots log lo) (hne : lo < log.length) :
    Circular slots log (lo + 1) where
  lo_le := hne
  fits := by
    have := h.fits
    omega
  stored i hlo hi := h.stored i (by omega) hi

/-- Reading the window slot by slot gives the log from `lo` on. -/
theorem map_slots (h : Circular slots log lo) :
    (List.range (log.length - lo)).map (fun k ↦ slots (Fin.ofNat n (lo + k))) = log.drop lo := by
  apply List.ext_getElem?
  intro k
  rw [List.getElem?_map, List.getElem?_drop]
  by_cases hk : k < log.length - lo
  · rw [List.getElem?_range hk, h.stored (lo + k) (by omega) (by omega)]
    rfl
  · rw [List.getElem?_eq_none (by simpa using hk), List.getElem?_eq_none (by omega)]
    rfl

end Circular
end EventStreamCore.Lib
