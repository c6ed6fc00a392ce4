import Mathlib.Algebra.Ring.Nat

/-!
# Big-endian numerals

General support: fixed-width byte numerals, most significant byte first, and the
shift-and-or spelling of the four-byte read. A little-endian numeral is the same digits in
the other order.
-/

namespace EventStreamCore.Lib

/-- The `width` low-order base-256 digits of `value`, most significant first. -/
def bigEndian : (width value : Nat) → List UInt8
  | 0, _ => []
  | width + 1, value => UInt8.ofNat (value / 256 ^ width % 256) :: bigEndian width value

/-- The `width` low-order base-256 digits of `value`, least significant first. -/
def littleEndian (width value : Nat) : List UInt8 := (bigEndian width value).reverse

/-- The number a byte string denotes, most significant byte first. -/
def ofBigEndian (bs : List UInt8) : Nat := bs.foldl (fun value b ↦ value * 256 + b.toNat) 0

/-- Every numeral has the requested width. -/
theorem length_bigEndian (width value : Nat) : (bigEndian width value).length = width := by
  induction width with
  | zero => rfl
  | succ width ih => rw [bigEndian, List.length_cons, ih]

private theorem foldl_digits (bs : List UInt8) (value : Nat) :
    bs.foldl (fun value b ↦ value * 256 + b.toNat) value =
      value * 256 ^ bs.length + ofBigEndian bs := by
  unfold ofBigEndian
  induction bs generalizing value with
  | nil => simp
  | cons b bs ih =>
    rw [List.foldl_cons, List.foldl_cons, ih, ih (0 * 256 + b.toNat), List.length_cons,
      Nat.pow_succ, Nat.add_mul, Nat.mul_assoc, Nat.mul_comm 256, Nat.zero_mul, Nat.zero_add,
      Nat.add_assoc]

/-- The first byte carries the highest weight. -/
theorem ofBigEndian_cons (b : UInt8) (bs : List UInt8) :
    ofBigEndian (b :: bs) = b.toNat * 256 ^ bs.length + ofBigEndian bs := by
  rw [ofBigEndian, List.foldl_cons, foldl_digits, Nat.zero_mul, Nat.zero_add]

/-- A byte string of length `w` denotes a number below `256 ^ w`. -/
theorem ofBigEndian_lt (bs : List UInt8) : ofBigEndian bs < 256 ^ bs.length := by
  induction bs with
  | nil => simp [ofBigEndian]
  | cons b bs ih =>
    have hb : b.toNat + 1 ≤ 256 := b.toNat_lt
    calc ofBigEndian (b :: bs) < (b.toNat + 1) * 256 ^ bs.length := by
          rw [ofBigEndian_cons, Nat.succ_mul]; omega
      _ ≤ 256 * 256 ^ bs.length := Nat.mul_le_mul_right _ hb
      _ = 256 ^ (b :: bs).length := by rw [List.length_cons, Nat.pow_succ, Nat.mul_comm]

/-- Reading back a numeral loses only the digits beyond its width. -/
theorem ofBigEndian_bigEndian (width value : Nat) :
    ofBigEndian (bigEndian width value) = value % 256 ^ width := by
  induction width with
  | zero => simp [bigEndian, ofBigEndian, Nat.mod_one]
  | succ width ih =>
    have hd : value / 256 ^ width % 256 % 2 ^ 8 = value / 256 ^ width % 256 :=
      Nat.mod_eq_of_lt (Nat.mod_lt _ (by decide))
    rw [bigEndian, ofBigEndian_cons, length_bigEndian, ih, UInt8.toNat_ofNat', hd, Nat.pow_succ,
      Nat.mod_mul, Nat.mul_comm, Nat.add_comm]

/-- Writing down the number a byte string denotes gives the string back. -/
theorem bigEndian_ofBigEndian (bs : List UInt8) :
    bigEndian bs.length (ofBigEndian bs) = bs := by
  have digits (high : Nat) : bigEndian bs.length (high * 256 ^ bs.length + ofBigEndian bs) =
      bs := by
    induction bs generalizing high with
    | nil => rfl
    | cons b bs ih =>
      have hlt := ofBigEndian_lt bs
      have hpos : 0 < 256 ^ bs.length := Nat.pow_pos (by decide)
      have hv : high * 256 ^ (b :: bs).length + ofBigEndian (b :: bs) =
          (high * 256 + b.toNat) * 256 ^ bs.length + ofBigEndian bs := by
        rw [ofBigEndian_cons, List.length_cons, Nat.pow_succ, Nat.add_mul]
        simp only [Nat.mul_assoc, Nat.mul_comm, Nat.add_assoc]
      have hq : ((high * 256 + b.toNat) * 256 ^ bs.length + ofBigEndian bs) / 256 ^ bs.length =
          high * 256 + b.toNat := by
        rw [Nat.mul_comm, Nat.mul_add_div hpos, Nat.div_eq_of_lt hlt, Nat.add_zero]
      have hb : (high * 256 + b.toNat) % 256 = b.toNat := by
        have := b.toNat_lt
        omega
      rw [List.length_cons, bigEndian, ← List.length_cons (a := b), hv, hq, hb, UInt8.ofNat_toNat,
        ih]
  simpa using digits 0

/-- The shift-and-or spelling of a four-byte big-endian read. -/
theorem shift_or_eq_ofBigEndian (b0 b1 b2 b3 : UInt8) :
    (b0.toNat <<< 24 ||| b1.toNat <<< 16 ||| b2.toNat <<< 8 ||| b3.toNat) =
      ofBigEndian [b0, b1, b2, b3] := by
  have h0 := b0.toNat_lt
  have h1 := b1.toNat_lt
  have h2 := b2.toNat_lt
  have h3 := b3.toNat_lt
  have s1 : b1.toNat <<< 16 < 2 ^ 24 := by rw [Nat.shiftLeft_eq]; omega
  have s2 : b2.toNat <<< 8 < 2 ^ 16 := by rw [Nat.shiftLeft_eq]; omega
  have e : b0.toNat <<< 24 ||| b1.toNat <<< 16 ||| b2.toNat <<< 8 ||| b3.toNat =
      b0.toNat <<< 24 + (b1.toNat <<< 16 + (b2.toNat <<< 8 + b3.toNat)) := by
    rw [Nat.or_assoc, Nat.or_assoc, ← Nat.shiftLeft_add_eq_or_of_lt h3,
      ← Nat.shiftLeft_add_eq_or_of_lt (b := b2.toNat <<< 8 + b3.toNat)
        (by rw [Nat.shiftLeft_eq]; omega),
      ← Nat.shiftLeft_add_eq_or_of_lt (by rw [Nat.shiftLeft_eq, Nat.shiftLeft_eq]; omega)]
  rw [e]
  simp only [ofBigEndian, List.foldl_cons, List.foldl_nil, Nat.shiftLeft_eq]
  omega

end EventStreamCore.Lib
