import X86Os.Library.Memory

/-!
# Little-endian words

A word of `n` bytes is the number whose digits to the base 256 its bytes are,
the least significant first. Both directions of the correspondence are stated
for prefixes of longer byte strings, as a decoder meets them.
-/

namespace Library.LittleEndian

open Library.Memory
set_option autoImplicit false

variable {bs rest : List Byte} {b : Byte} {n v : ℕ}

def leValue : List Byte → ℕ
  | [] => 0
  | b :: bs => b.toNat + 256 * leValue bs

def leBytes : ℕ → ℕ → List Byte
  | 0, _ => []
  | n + 1, v => BitVec.ofNat 8 v :: leBytes n (v / 256)

@[simp] theorem length_leBytes (n v : ℕ) : (leBytes n v).length = n := by
  induction n generalizing v with
  | zero => rfl
  | succ n ih => rw [leBytes, List.length_cons, ih]

theorem leValue_lt (bs : List Byte) : leValue bs < 256 ^ bs.length := by
  induction bs with
  | nil => exact Nat.one_pos
  | cons b bs ih =>
    have byte : b.toNat < 256 := b.isLt
    rw [leValue, List.length_cons, pow_succ]
    omega

theorem leBytes_leValue (bs : List Byte) : leBytes bs.length (leValue bs) = bs := by
  induction bs with
  | nil => rfl
  | cons b bs ih =>
    have byte : b.toNat < 256 := b.isLt
    have low : BitVec.ofNat 8 (b.toNat + 256 * leValue bs) = b := by
      apply BitVec.eq_of_toNat_eq
      rw [BitVec.toNat_ofNat]
      omega
    have high : (b.toNat + 256 * leValue bs) / 256 = leValue bs := by omega
    rw [List.length_cons, leValue, leBytes, low, high, ih]

theorem leValue_leBytes (below : v < 256 ^ n) : leValue (leBytes n v) = v := by
  induction n generalizing v with
  | zero => exact (Nat.lt_one_iff.mp below).symm
  | succ n ih =>
    rw [pow_succ] at below
    rw [leBytes, leValue, ih (by omega), BitVec.toNat_ofNat]
    omega

theorem leValue_append (bs rest : List Byte) :
    leValue (bs ++ rest) = leValue bs + 256 ^ bs.length * leValue rest := by
  induction bs with
  | nil => simp [leValue]
  | cons b bs ih =>
    rw [List.cons_append, leValue, ih, leValue, List.length_cons, pow_succ]
    ring

/-- A string starts with the bytes of `v` when its first `n` bytes have this value. -/
theorem leBytes_prefix_iff (fits : n ≤ bs.length) :
    (v < 256 ^ n ∧ leBytes n v <+: bs) ↔ leValue (bs.take n) = v := by
  have length : (bs.take n).length = n := List.length_take_of_le fits
  constructor
  · rintro ⟨below, same⟩
    have front : leBytes n v = bs.take n := by
      rw [List.prefix_iff_eq_take.mp same, length_leBytes]
    rw [← front, leValue_leBytes below]
  · rintro rfl
    have bound := leValue_lt (bs.take n)
    have same := leBytes_leValue (bs.take n)
    rw [length] at bound same
    rw [same]
    exact ⟨bound, List.take_prefix n bs⟩

end Library.LittleEndian
