import Mathlib.Data.Nat.Digits.Lemmas
import X86Os.Library.Buffer
import X86Os.Library.Memory

/-!
# Numbers and texts in base/libc/itoa.cpp and base/libc/atoi.cpp

`itoa` writes the digits lowest first and reverses them in place. What stands
behind the terminator in its buffer stays there.
-/

namespace X86Os.Libc

open Library.Memory Library.Buffer
set_option autoImplicit false

abbrev Chars := Nat → Byte

def chr (c : Char) : Byte := BitVec.ofNat 8 c.toNat

def isspace (c : Byte) : Bool :=
  c == chr ' ' || c == chr '\t' || c == chr '\n' || c == 0x0B || c == 0x0C || c == chr '\r'

def atoiDigits (result : Word) : List Byte → Word
  | [] => result
  | c :: string =>
    let digit := c.signExtend 32 - (chr '0').signExtend 32
    if digit > 9 then result else atoiDigits (10 * result + digit) string

def atoi (string : List Byte) : Word :=
  match string.dropWhile isspace with
  | [] => 0
  | c :: rest =>
    if c = chr '-' then -atoiDigits 0 rest
    else if c = chr '+' then atoiDigits 0 rest
    else atoiDigits 0 (c :: rest)

def digitChar (tmp : Word) : Byte :=
  if tmp < 10 then (tmp + (chr '0').setWidth 32).setWidth 8
  else (tmp + (chr 'a').setWidth 32 - 10).setWidth 8

/-- The do-while loop over the digits, with the index behind the last one. -/
def itoaLoop (base : Word) : Nat → Chars → Word → Nat → Chars × Nat
  | 0, buf, _, i => (buf, i)
  | fuel + 1, buf, n, i =>
    let buf := Function.update buf i (digitChar (n % base))
    if n / base = 0 then (buf, i + 1) else itoaLoop base fuel buf (n / base) (i + 1)

def itoa (buf : Chars) (n base : Word) : Chars :=
  let (buf, i) := itoaLoop base 32 buf n 0
  let buf := Function.update buf i 0
  reverseLoop i buf 0 (i - 1)

/-- `strlen` of a buffer of the given size; `none` when it has no terminator. -/
def strlenIn (bound : Nat) (buf : Chars) : Option Nat := firstIndex bound fun i => buf i == 0

/-- The digits of a number, lowest first, of which zero has one. -/
def lowDigits (base n : Nat) : List Nat := if n = 0 then [0] else Nat.digits base n

def lowChars (base n : Word) : List Byte :=
  (lowDigits base.toNat n.toNat).map fun t => digitChar (BitVec.ofNat 32 t)

/-- What `itoa` is for. -/
def numeral (base n : Word) : List Byte := (lowChars base n).reverse

variable {base n : Word} {b k i fuel : Nat} {buf : Chars}

theorem lowDigits_step (hb : 1 < b) (k : Nat) :
    lowDigits b k = k % b :: if k / b = 0 then [] else lowDigits b (k / b) := by
  rw [lowDigits]
  split
  next zero =>
    rw [zero, Nat.zero_mod, Nat.zero_div, if_pos rfl]
  next pos =>
    rw [Nat.digits_def' hb (Nat.pos_of_ne_zero pos), lowDigits]
    split
    next last => rw [last, Nat.digits_zero]
    next => rfl

theorem lowDigits_lt (hb : 1 < b) {t : Nat} (mem : t ∈ lowDigits b k) : t < b := by
  rw [lowDigits] at mem
  split at mem
  · rw [List.mem_singleton] at mem
    omega
  · exact Nat.digits_lt_base hb mem

theorem lowDigits_length_pos (hb : 1 < b) : 0 < (lowDigits b k).length := by
  rw [lowDigits_step hb]
  exact Nat.succ_pos _

theorem lowDigits_length_le (hb : 1 < b) (hk : k < 2 ^ 32) : (lowDigits b k).length ≤ 32 := by
  rw [lowDigits]
  split
  · decide
  · rw [Nat.digits_length_le_iff hb]
    exact hk.trans_le (Nat.pow_le_pow_left hb 32)

theorem ofDigits_lowDigits (b k : Nat) : Nat.ofDigits b (lowDigits b k) = k := by
  rw [lowDigits]
  split
  next zero => rw [zero, Nat.ofDigits_singleton]
  next => exact Nat.ofDigits_digits b k

/-- The highest digit is no zero, except for the only digit of zero. -/
theorem lowDigits_leading {ds : List Nat} (eq : lowDigits b k = ds ++ [0]) : ds = [] := by
  rw [lowDigits] at eq
  split at eq
  next zero =>
    cases ds with
    | nil => rfl
    | cons d ds => simp at eq
  next pos =>
    have last := Nat.getLast_digit_ne_zero b pos
    simp only [eq, List.getLast_append_singleton, ne_eq, not_true_eq_false] at last

theorem digitChar_ne_zero {t : Nat} (ht : t < 16) : digitChar (BitVec.ofNat 32 t) ≠ 0 := by
  have all : ∀ t : Fin 16, digitChar (BitVec.ofNat 32 t) ≠ 0 := by decide
  exact all ⟨t, ht⟩

theorem lowChars_step (hb : 1 < base.toNat) : lowChars base n =
    digitChar (n % base) :: if n / base = 0 then [] else lowChars base (n / base) := by
  have remainder : BitVec.ofNat 32 (n.toNat % base.toNat) = n % base := by
    rw [← BitVec.toNat_umod, BitVec.ofNat_toNat, BitVec.setWidth_eq]
  have zero : n / base = 0 ↔ n.toNat / base.toNat = 0 := by
    rw [← BitVec.toNat_udiv, ← BitVec.toNat_inj]
    rfl
  rw [lowChars, lowDigits_step hb, List.map_cons, remainder, lowChars, BitVec.toNat_udiv]
  by_cases last : n / base = 0
  · rw [if_pos last, if_pos (zero.mp last), List.map_nil]
  · rw [if_neg last, if_neg fun h => last (zero.mpr h)]

theorem lowChars_length : (lowChars base n).length = (lowDigits base.toNat n.toNat).length :=
  List.length_map _

theorem quotient_zero (last : n.toNat < base.toNat) : n / base = 0 := by
  rw [← BitVec.toNat_inj, BitVec.toNat_udiv, Nat.div_eq_of_lt last]
  rfl

theorem quotient_lt (bound : n.toNat < base.toNat ^ (k + 1)) : (n / base).toNat < base.toNat ^ k := by
  rw [BitVec.toNat_udiv]
  exact Nat.div_lt_of_lt_mul (by rwa [← pow_succ'])

theorem itoaLoop_eq (hb : 1 < base.toNat) (enough : n.toNat < base.toNat ^ (fuel + 1)) :
    itoaLoop base (fuel + 1) buf n i =
      (writeAt i (lowChars base n) buf, i + (lowChars base n).length) := by
  induction fuel generalizing buf n i with
  | zero =>
    have last : n / base = 0 := quotient_zero (by rwa [zero_add, pow_one] at enough)
    rw [lowChars_step hb, if_pos last, itoaLoop, if_pos last, writeAt_cons, writeAt_nil]
    rfl
  | succ fuel ih =>
    rw [lowChars_step hb, itoaLoop, writeAt_cons]
    by_cases last : n / base = 0
    · rw [if_pos last, if_pos last, writeAt_nil]
      rfl
    · have smaller : (n / base).toNat < base.toNat ^ (fuel + 1) := quotient_lt enough
      rw [if_neg last, if_neg last, ih smaller, List.length_cons, add_assoc, add_comm 1]

theorem numeral_length : (numeral base n).length = (lowChars base n).length := List.length_reverse

theorem numeral_length_pos (hb : 1 < base.toNat) : 0 < (numeral base n).length := by
  rw [numeral_length, lowChars_length]
  exact lowDigits_length_pos hb

theorem numeral_length_le (hb : 1 < base.toNat) : (numeral base n).length ≤ 32 := by
  rw [numeral_length, lowChars_length]
  exact lowDigits_length_le hb n.isLt

theorem numeral_ne_zero (hb : 1 < base.toNat) (small : base.toNat ≤ 16) {c : Byte}
    (mem : c ∈ numeral base n) : c ≠ 0 := by
  obtain ⟨t, ht, rfl⟩ := List.mem_map.mp (List.mem_reverse.mp mem)
  exact digitChar_ne_zero ((lowDigits_lt hb ht).trans_le small)

/-- `itoa` leaves the numeral and its terminator at the front of the buffer. -/
theorem itoa_eq (hb : 1 < base.toNat) : itoa buf n base = writeAt 0 (numeral base n ++ [0]) buf := by
  have enough : n.toNat < base.toNat ^ (31 + 1) := n.isLt.trans_le (Nat.pow_le_pow_left hb 32)
  have loop : itoaLoop base 32 buf n 0 = _ := itoaLoop_eq hb enough
  rw [zero_add] at loop
  have pos := numeral_length_pos (n := n) hb
  rw [numeral_length] at pos
  rw [itoa, loop]
  dsimp only
  rw [reverseLoop_eq (by omega)]
  funext x
  obtain inside | rfl | behind := lt_trichotomy x (lowChars base n).length
  · have front : x < (numeral base n).length := by rwa [numeral_length]
    rw [if_pos (by omega), Function.update_of_ne (by omega), writeAt_inside (by omega),
      writeAt_inside (by rw [List.length_append]; omega), List.getElem_append_left front]
    simp only [numeral, List.getElem_reverse]
    congr 1
    omega
  · rw [if_neg (by omega), Function.update_self,
      writeAt_inside (by rw [List.length_append, numeral_length]; exact Nat.lt_succ_self _)]
    simp [numeral_length]
  · rw [if_neg (by omega), Function.update_of_ne behind.ne', writeAt_behind behind.le,
      writeAt_behind (by rw [List.length_append, numeral_length]; exact behind)]

end X86Os.Libc
