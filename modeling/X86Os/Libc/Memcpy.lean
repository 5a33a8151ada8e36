import X86Os.Library.Memory

/-!
# memcpy

The loop of base/libc/memcpy.cpp counts an `int` down to zero, so it runs `num`
times modulo 2^32, byte by byte from the front.
-/

namespace X86Os.Libc

open Library.Memory
set_option autoImplicit false

def copyBytes (m : Mem) (dst src : Word) : Nat → Mem
  | 0 => m
  | n + 1 =>
    let m := copyBytes m dst src n
    store8 m (dst + BitVec.ofNat 32 n) (m (src + BitVec.ofNat 32 n))

def memcpy (m : Mem) (dst src num : Word) : Mem := copyBytes m dst src num.toNat

variable {m : Mem} {dst src x : Word} {k n : Nat}

theorem covers_ofNat (fits : n ≤ 2 ^ 32) : Covers dst n x ↔ ∃ k < n, x = dst + BitVec.ofNat 32 k := by
  constructor
  · intro covered
    refine ⟨(x - dst).toNat, covered, ?_⟩
    rw [BitVec.ofNat_toNat, BitVec.setWidth_eq]
    ring
  · rintro ⟨k, inside, rfl⟩
    rw [covers_add, BitVec.toNat_ofNat]
    omega

theorem copyBytes_outside (fits : n ≤ 2 ^ 32) (outside : ¬Covers dst n x) :
    copyBytes m dst src n x = m x := by
  induction n with
  | zero => rfl
  | succ n ih =>
    have before : ¬Covers dst n x := fun covered => outside (Nat.lt_succ_of_lt covered)
    rw [copyBytes, store8_other, ih (by omega) before]
    rintro rfl
    exact outside ((covers_ofNat fits).mpr ⟨n, Nat.lt_succ_self n, rfl⟩)

/-- What is copied to a place, as long as no earlier round writes to where it is read. -/
theorem copyBytes_inside (fits : n ≤ 2 ^ 32) (inside : k < n)
    (unwritten : ¬Covers dst k (src + BitVec.ofNat 32 k)) :
    copyBytes m dst src n (dst + BitVec.ofNat 32 k) = m (src + BitVec.ofNat 32 k) := by
  induction n with
  | zero => cases inside
  | succ n ih =>
    rw [copyBytes]
    obtain rfl | before := Nat.eq_or_lt_of_le (Nat.le_of_lt_succ inside)
    · rw [store8_same, copyBytes_outside (by omega) unwritten]
    · rw [store8_other, ih (by omega) before]
      intro same
      have index := congrArg BitVec.toNat (add_left_cancel same)
      rw [BitVec.toNat_ofNat, BitVec.toNat_ofNat] at index
      omega

theorem memcpy_outside {num : Word} (outside : ¬Covers dst num.toNat x) :
    memcpy m dst src num x = m x :=
  copyBytes_outside num.isLt.le outside

end X86Os.Libc
