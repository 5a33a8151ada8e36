import X86Os.Library.Memory

/-!
# UTF-8

The encoding of a code point, and the shapes its bytes can have: which range the
first byte lies in, and how the code point is put together again from the low bits.
-/

namespace Library.Utf8

open Library.Memory
set_option autoImplicit false

/-- A byte behind the first one. -/
def trail (n : Nat) : Byte := BitVec.ofNat 8 (0x80 + n % 2 ^ 6)

def encode (n : Nat) : List Byte :=
  if n < 0x80 then [BitVec.ofNat 8 n]
  else if n < 0x800 then [BitVec.ofNat 8 (0xC0 + n / 2 ^ 6), trail n]
  else if n < 0x10000 then [BitVec.ofNat 8 (0xE0 + n / 2 ^ 12), trail (n / 2 ^ 6), trail n]
  else [BitVec.ofNat 8 (0xF0 + n / 2 ^ 18), trail (n / 2 ^ 12), trail (n / 2 ^ 6), trail n]

inductive Shape (n : Nat) : List Byte → Prop
  | one {a : Byte} : a.toNat < 0x80 → n = a.toNat → Shape n [a]
  | two {a b : Byte} : 0xC0 ≤ a.toNat → a.toNat < 0xE0 →
      n = a.toNat % 2 ^ 5 * 2 ^ 6 + b.toNat % 2 ^ 6 → Shape n [a, b]
  | three {a b c : Byte} : 0xE0 ≤ a.toNat → a.toNat < 0xF0 →
      n = (a.toNat % 2 ^ 4 * 2 ^ 6 + b.toNat % 2 ^ 6) * 2 ^ 6 + c.toNat % 2 ^ 6 → Shape n [a, b, c]
  | four {a b c d : Byte} : 0xF0 ≤ a.toNat → a.toNat < 0xF8 →
      n = ((a.toNat % 2 ^ 3 * 2 ^ 6 + b.toNat % 2 ^ 6) * 2 ^ 6 + c.toNat % 2 ^ 6) * 2 ^ 6 +
        d.toNat % 2 ^ 6 → Shape n [a, b, c, d]

variable {n : Nat}

theorem trail_low (n : Nat) : (trail n).toNat % 2 ^ 6 = n % 2 ^ 6 := by
  rw [trail, BitVec.toNat_ofNat]
  omega

theorem encode_shape (small : n < 0x200000) : Shape n (encode n) := by
  rw [encode]
  split
  next one => exact .one (by rw [BitVec.toNat_ofNat]; omega) (by rw [BitVec.toNat_ofNat]; omega)
  split
  next two =>
    have lead : (BitVec.ofNat 8 (0xC0 + n / 2 ^ 6)).toNat = 0xC0 + n / 2 ^ 6 := by
      rw [BitVec.toNat_ofNat]
      omega
    exact .two (by omega) (by omega) (by rw [lead, trail_low]; omega)
  split
  next three =>
    have lead : (BitVec.ofNat 8 (0xE0 + n / 2 ^ 12)).toNat = 0xE0 + n / 2 ^ 12 := by
      rw [BitVec.toNat_ofNat]
      omega
    exact .three (by omega) (by omega) (by rw [lead, trail_low, trail_low]; omega)
  next four =>
    have lead : (BitVec.ofNat 8 (0xF0 + n / 2 ^ 18)).toNat = 0xF0 + n / 2 ^ 18 := by
      rw [BitVec.toNat_ofNat]
      omega
    exact .four (by omega) (by omega) (by rw [lead, trail_low, trail_low, trail_low]; omega)

theorem encode_length_le (small : n < 0x10000) : (encode n).length ≤ 3 := by
  rw [encode]
  split_ifs <;> simp

end Library.Utf8
