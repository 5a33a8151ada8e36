import Mathlib.Data.Nat.Bitwise

/-!
# Bits of a list of bytes

Bit `j` is bit `j % 8` of byte `j / 8`. Code that moves bit fields through masks
and shifts is compared with these bits one by one.
-/

namespace Library.BitBuffer
set_option autoImplicit false

variable {w n i j : ℕ} {bytes : List (BitVec 8)}

/-- The mask of the lowest `n` bits. -/
theorem getLsbD_lowMask (fits : n < w) (i : ℕ) :
    ((1#w <<< n) - 1#w).getLsbD i = decide (i < n) := by
  have power : 2 ^ n < 2 ^ w := Nat.pow_lt_pow_right (by decide) fits
  have pos : 0 < 2 ^ n := Nat.two_pow_pos n
  have one : (1#w).toNat = 1 := by
    rw [BitVec.toNat_ofNat, Nat.mod_eq_of_lt (lt_of_le_of_lt pos power)]
  have shifted : (1#w <<< n).toNat = 2 ^ n := by
    rw [BitVec.toNat_shiftLeft, one, Nat.shiftLeft_eq, Nat.one_mul, Nat.mod_eq_of_lt power]
  have value : ((1#w <<< n) - 1#w).toNat = 2 ^ n - 1 := by
    rw [BitVec.toNat_sub_of_le (by rw [BitVec.le_def, one, shifted]; exact pos), shifted, one]
  rw [BitVec.getLsbD, value, Nat.testBit_two_pow_sub_one]

def bit (bytes : List (BitVec 8)) (j : ℕ) : Bool := (bytes.getD (j / 8) 0).getLsbD (j % 8)

theorem bit_set (inside : i < bytes.length) (b : BitVec 8) (j : ℕ) :
    bit (bytes.set i b) j = if j / 8 = i then b.getLsbD (j % 8) else bit bytes j := by
  obtain rfl | other := eq_or_ne (j / 8) i
  · rw [if_pos rfl, bit, List.getD_eq_getElem?_getD, List.getElem?_set_self inside, Option.getD_some]
  · rw [if_neg other, bit, List.getD_eq_getElem?_getD, List.getElem?_set_ne other.symm,
      ← List.getD_eq_getElem?_getD, ← bit]

theorem bit_replicate_zero (k j : ℕ) : bit (List.replicate k 0) j = false := by
  have zero : (List.replicate k (0 : BitVec 8)).getD (j / 8) 0 = 0 := by
    rw [List.getD_eq_getElem?_getD, List.getElem?_replicate]
    split_ifs <;> rfl
  rw [bit, zero]
  exact BitVec.getLsbD_zero

/-- The bits from `lo` on of a byte at place `lo / 8` and of nothing else. -/
theorem or_bits (wide : 8 ≤ w) (old : BitVec 8) {lo : ℕ} {piece : BitVec w} (j : ℕ) (same : j / 8 = lo / 8) :
    (old ||| (piece <<< (lo % 8)).setWidth 8).getLsbD (j % 8) =
      (old.getLsbD (j % 8) || decide (lo ≤ j) && piece.getLsbD (j - lo)) := by
  have low : j % 8 < 8 := Nat.mod_lt _ (by decide)
  have place : decide (j % 8 < lo % 8) = !decide (lo ≤ j) := by
    rw [← decide_not, decide_eq_decide]
    omega
  rw [BitVec.getLsbD_or, BitVec.getLsbD_setWidth, BitVec.getLsbD_shiftLeft, decide_eq_true low,
    decide_eq_true (lt_of_lt_of_le low wide), place]
  obtain before | behind := lt_or_ge j lo
  · rw [decide_eq_false (not_le_of_gt before)]
    simp
  · rw [decide_eq_true behind, show j % 8 - lo % 8 = j - lo by omega]
    simp

/-- A range in two parts. -/
theorem join_ranges {lo mid hi : ℕ} (first : lo ≤ mid) (second : mid ≤ hi) (j : ℕ) (x : Bool) :
    (decide (lo ≤ j ∧ j < mid) && x || decide (mid ≤ j ∧ j < hi) && x) =
      (decide (lo ≤ j ∧ j < hi) && x) := by
  rw [← Bool.and_or_distrib_right, ← Bool.decide_or]
  congr 1
  rw [decide_eq_decide]
  omega

end Library.BitBuffer
