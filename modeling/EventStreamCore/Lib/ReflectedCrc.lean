import Mathlib.Algebra.Ring.Nat
import Mathlib.Logic.Function.Iterate

/-!
# Reflected cyclic redundancy checks

General support, independent of any program: a register of `w` bits, its generator
polynomial in reflected form, and messages as lists of bits in the order they are sent.
Symbols of `n ≤ w` bits, least significant bit first, can be processed at once by one shift
and one table entry.
-/

namespace EventStreamCore.Lib.ReflectedCrc

variable {w : Nat}

/-- One step of the register: the bit that leaves it decides whether the polynomial is added. -/
def shift (poly c : BitVec w) : BitVec w := if c.getLsbD 0 then (c >>> 1) ^^^ poly else c >>> 1

/-- One message bit, added to the bit that leaves the register. -/
def bitStep (poly c : BitVec w) (b : Bool) : BitVec w :=
  if c.getLsbD 0 ^^ b then (c >>> 1) ^^^ poly else c >>> 1

/-- The check of a message, bit by bit. -/
def crc (poly init final : BitVec w) (message : List Bool) : BitVec w :=
  message.foldl (bitStep poly) init ^^^ final

/-- The bits of a symbol, least significant first. -/
def symbolBits {n : Nat} (x : BitVec n) : List Bool := List.ofFn fun i : Fin n ↦ x.getLsbD i

/-- The low `n` bits of a register. -/
def lowMask (w n : Nat) : BitVec w := (BitVec.allOnes n).setWidth w

/-- One symbol at once: the table entry of the low bits is the register after `n` steps. -/
def tableStep {n : Nat} (poly c : BitVec w) (x : BitVec n) : BitVec w :=
  (c >>> n) ^^^ (shift poly)^[n] ((c ^^^ x.setWidth w) &&& lowMask w n)

private theorem xor_cancel_right (a b p : BitVec w) : a ^^^ p ^^^ (b ^^^ p) = a ^^^ b := by
  rw [BitVec.xor_comm b p, ← BitVec.xor_assoc, BitVec.xor_assoc a p p, BitVec.xor_self,
    BitVec.xor_zero]

/-- A step is linear in the register. -/
theorem shift_xor (poly a b : BitVec w) : shift poly (a ^^^ b) = shift poly a ^^^ shift poly b := by
  unfold shift
  rw [BitVec.getLsbD_xor, BitVec.ushiftRight_xor_distrib]
  cases a.getLsbD 0 <;> cases b.getLsbD 0
  · rfl
  · exact BitVec.xor_assoc _ _ _
  · simp only [Bool.bne_false, if_true, Bool.false_eq_true, if_false]
    rw [BitVec.xor_assoc, BitVec.xor_comm (b >>> 1), ← BitVec.xor_assoc]
  · exact (xor_cancel_right _ _ _).symm

/-- So are several steps. -/
theorem iterate_shift_xor (poly : BitVec w) (k : Nat) (a b : BitVec w) :
    (shift poly)^[k] (a ^^^ b) = (shift poly)^[k] a ^^^ (shift poly)^[k] b := by
  induction k generalizing a b with
  | zero => rfl
  | succ k ih => rw [Function.iterate_succ_apply, shift_xor, ih]; rfl

/-- A register whose low bit is clear only moves down. -/
theorem shift_of_clear (poly : BitVec w) {c : BitVec w} (h : c.getLsbD 0 = false) :
    shift poly c = c >>> 1 := by
  rw [shift, h]
  rfl

/-- A register whose low `k` bits are clear moves down `k` places. -/
theorem iterate_shift_of_clear (poly : BitVec w) (k : Nat) {c : BitVec w}
    (h : ∀ i < k, c.getLsbD i = false) : (shift poly)^[k] c = c >>> k := by
  induction k with
  | zero => exact (BitVec.ushiftRight_zero c).symm
  | succ k ih =>
    have hlow : (c >>> k).getLsbD 0 = false := by
      rw [BitVec.getLsbD_ushiftRight]
      exact h k (Nat.lt_succ_self k)
    rw [Function.iterate_succ_apply', ih fun i hi ↦ h i (by omega), shift_of_clear poly hlow,
      BitVec.shiftRight_add]

theorem getLsbD_lowMask {n : Nat} (i : Nat) :
    (lowMask w n).getLsbD i = decide (i < w ∧ i < n) := by
  simp [lowMask]

/-- A register is the sum of its low bits and the others. -/
private theorem split_low (n : Nat) (c : BitVec w) :
    (c &&& ~~~lowMask w n) ^^^ (c &&& lowMask w n) = c := by
  apply BitVec.eq_of_getLsbD_eq
  intro i hi
  simp only [BitVec.getLsbD_xor, BitVec.getLsbD_and, BitVec.getLsbD_not]
  cases c.getLsbD i <;> cases (lowMask w n).getLsbD i <;> simp [hi]

/-- A register with no bit from place `n` on is empty after moving down `n` places. -/
private theorem ushiftRight_eq_zero {n : Nat} {c : BitVec w}
    (h : ∀ i, n ≤ i → c.getLsbD i = false) : c >>> n = 0#w := by
  apply BitVec.eq_of_getLsbD_eq
  intro i _
  rw [BitVec.getLsbD_ushiftRight, h _ (Nat.le_add_right n i), BitVec.getLsbD_zero]

/-- Several steps: the register moved down, and the steps of the bits that left it. -/
theorem iterate_shift_eq (poly : BitVec w) (n : Nat) (c : BitVec w) :
    (shift poly)^[n] c = (c >>> n) ^^^ (shift poly)^[n] (c &&& lowMask w n) := by
  have hclear : ∀ i < n, (c &&& ~~~lowMask w n).getLsbD i = false := by
    intro i hi
    rw [BitVec.getLsbD_and, BitVec.getLsbD_not, getLsbD_lowMask]
    simp [hi]
  have hgone : (c &&& lowMask w n) >>> n = 0#w := by
    apply ushiftRight_eq_zero
    intro i hi
    rw [BitVec.getLsbD_and, getLsbD_lowMask]
    simp [Nat.not_lt.mpr hi]
  calc (shift poly)^[n] c
      = (shift poly)^[n] (c &&& ~~~lowMask w n) ^^^ (shift poly)^[n] (c &&& lowMask w n) := by
        rw [← iterate_shift_xor, split_low]
    _ = ((c &&& ~~~lowMask w n) ^^^ (c &&& lowMask w n)) >>> n
          ^^^ (shift poly)^[n] (c &&& lowMask w n) := by
        rw [iterate_shift_of_clear poly n hclear, BitVec.ushiftRight_xor_distrib, hgone,
          BitVec.xor_zero]
    _ = (c >>> n) ^^^ (shift poly)^[n] (c &&& lowMask w n) := by rw [split_low]

/-- A message bit may be added to the register before the step. -/
theorem bitStep_eq_shift (poly c : BitVec w) (b : Bool) (hw : 0 < w) :
    bitStep poly c b = shift poly (c ^^^ (BitVec.ofBool b).setWidth w) := by
  have hbit : ((BitVec.ofBool b).setWidth w).getLsbD 0 = b := by
    rw [BitVec.getLsbD_setWidth, BitVec.getLsbD_ofBool]
    simp [hw]
  have hgone : (BitVec.ofBool b).setWidth w >>> 1 = 0#w := by
    apply ushiftRight_eq_zero
    intro i hi
    rw [BitVec.getLsbD_setWidth, BitVec.getLsbD_of_ge _ i hi, Bool.and_false]
  rw [bitStep, shift, BitVec.getLsbD_xor, hbit, BitVec.ushiftRight_xor_distrib, hgone,
    BitVec.xor_zero]

/-- The register that holds the given bits, the first one lowest. -/
private def ofBits (w : Nat) : List Bool → BitVec w
  | [] => 0
  | b :: bs => (ofBits w bs <<< 1) ^^^ (BitVec.ofBool b).setWidth w

private theorem getLsbD_ofBits (bs : List Bool) (i : Nat) :
    (ofBits w bs).getLsbD i = (decide (i < w) && bs.getD i false) := by
  induction bs generalizing i with
  | nil => simp [ofBits]
  | cons b bs ih =>
    rw [ofBits, BitVec.getLsbD_xor, BitVec.getLsbD_shiftLeft, BitVec.getLsbD_setWidth,
      BitVec.getLsbD_ofBool, ih]
    cases i with
    | zero => simp
    | succ i =>
      by_cases h : i + 1 < w
      · simp [h, show i < w by omega]
      · simp [h]

/-- While the bits fit, moving them up and one step leave them where they were. -/
private theorem shift_ofBits (poly : BitVec w) {bs : List Bool} (h : bs.length < w) :
    shift poly (ofBits w bs <<< 1) = ofBits w bs := by
  have hlow : (ofBits w bs <<< 1).getLsbD 0 = false := by simp
  rw [shift_of_clear poly hlow]
  apply BitVec.eq_of_getLsbD_eq
  intro i hi
  rw [BitVec.getLsbD_ushiftRight, BitVec.getLsbD_shiftLeft, Nat.add_sub_cancel_left,
    getLsbD_ofBits]
  by_cases hb : i < bs.length
  · simp [hi, show 1 + i < w by omega]
  · simp [show bs[i]? = none from List.getElem?_eq_none (by omega)]

/-- Message bits one after another, or all added first and then as many steps. -/
private theorem foldl_bitStep (poly : BitVec w) {bs : List Bool} (h : bs.length ≤ w)
    (c : BitVec w) :
    bs.foldl (bitStep poly) c = (shift poly)^[bs.length] (c ^^^ ofBits w bs) := by
  induction bs generalizing c with
  | nil => exact (BitVec.xor_zero).symm
  | cons b bs ih =>
    rw [List.length_cons] at h
    have hadd : shift poly (c ^^^ ofBits w (b :: bs)) = bitStep poly c b ^^^ ofBits w bs := by
      rw [ofBits, BitVec.xor_comm (ofBits w bs <<< 1), ← BitVec.xor_assoc, shift_xor,
        shift_ofBits poly (by omega), bitStep_eq_shift poly c b (by omega)]
    rw [List.foldl_cons, ih (by omega), List.length_cons, Function.iterate_succ_apply, hadd]

private theorem ofBits_symbolBits {n : Nat} (x : BitVec n) :
    ofBits w (symbolBits x) = x.setWidth w := by
  apply BitVec.eq_of_getLsbD_eq
  intro i hi
  rw [getLsbD_ofBits, BitVec.getLsbD_setWidth, symbolBits]
  by_cases h : i < n
  · simp [h]
  · simp [h, BitVec.getLsbD_of_ge x i (by omega)]

/-- Processing the bits of a symbol one by one is one step with the table. -/
theorem foldl_symbolBits {n : Nat} (hn : n ≤ w) (poly c : BitVec w) (x : BitVec n) :
    (symbolBits x).foldl (bitStep poly) c = tableStep poly c x := by
  have hlen : (symbolBits x).length = n := List.length_ofFn
  have hgone : x.setWidth w >>> n = 0#w := by
    apply ushiftRight_eq_zero
    intro i hi
    rw [BitVec.getLsbD_setWidth, BitVec.getLsbD_of_ge x i hi, Bool.and_false]
  rw [foldl_bitStep poly (by omega), hlen, ofBits_symbolBits, iterate_shift_eq,
    BitVec.ushiftRight_xor_distrib, hgone, BitVec.xor_zero, tableStep]

/-- The check of a message of symbols, from the table. -/
theorem crc_flatMap_symbolBits {n : Nat} (hn : n ≤ w) (poly init final : BitVec w)
    (xs : List (BitVec n)) :
    crc poly init final (xs.flatMap symbolBits) = xs.foldl (tableStep poly) init ^^^ final := by
  unfold crc
  congr 1
  induction xs generalizing init with
  | nil => rfl
  | cons x xs ih =>
    rw [List.flatMap_cons, List.foldl_append, foldl_symbolBits hn, ih, List.foldl_cons]

end EventStreamCore.Lib.ReflectedCrc
