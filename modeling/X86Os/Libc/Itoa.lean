import X86Os.Libc.Numbers

/-!
# What base/libc/itoa.cpp writes

The text is the numeral of the number in the base, and the only places written are
those of the text and of its terminator.
-/

namespace X86Os.Libc

open Library.Memory Library.Buffer
set_option autoImplicit false

/-! ## Numerals -/

def digitOf (c : Byte) : Option Nat :=
  if chr '0' ≤ c ∧ c ≤ chr '9' then some (c.toNat - (chr '0').toNat)
  else if chr 'a' ≤ c ∧ c ≤ chr 'z' then some (c.toNat - (chr 'a').toNat + 10)
  else none

def evaluate (b : Nat) (ds : List Nat) : Nat := ds.foldl (fun v t => b * v + t) 0

structure IsNumeral (b k : Nat) (cs : List Byte) : Prop where
  nonempty : cs ≠ []
  digits : ∀ c ∈ cs, ∃ t < b, digitOf c = some t
  leading : cs.head? = some (chr '0') → cs = [chr '0']
  value : evaluate b (cs.filterMap digitOf) = k

/-! ## The places written -/

def digitIndices (base : Word) : Nat → Word → Nat → List Nat
  | 0, _, _ => []
  | fuel + 1, n, i => i :: if n / base = 0 then [] else digitIndices base fuel (n / base) (i + 1)

def swapIndices : Nat → Nat → Nat → List Nat
  | 0, _, _ => []
  | fuel + 1, j, i => if j < i then j :: i :: swapIndices fuel (j + 1) (i - 1) else []

/-- The indices of `buf` that `itoa` stores to, in this order. -/
def itoaIndices (n base : Word) : List Nat :=
  let i := (itoaLoop base 32 (fun _ => 0) n 0).2
  digitIndices base 32 n 0 ++ i :: swapIndices i 0 (i - 1)

/-- `itoa` with as many rounds of each loop as are given. -/
def itoaWithin (fuel : Nat) (buf : Chars) (n base : Word) : Chars :=
  let (buf, i) := itoaLoop base fuel buf n 0
  reverseLoop fuel (Function.update buf i 0) 0 (i - 1)

structure WritesNumeral (buf : Chars) (n base : Word) : Prop where
  finishes : ∀ fuel, 32 ≤ fuel → itoaWithin fuel buf n base = itoa buf n base
  text : ∃ cs : List Byte, IsNumeral base.toNat n.toNat cs ∧ 0 ∉ cs ∧
    (∀ (i : Nat) (inside : i < cs.length), itoa buf n base i = cs[i]) ∧ itoa buf n base cs.length = 0
  writes : ∀ x ∈ itoaIndices n base, x < 33
  keeps : ∀ x, x ∉ itoaIndices n base → itoa buf n base x = buf x

variable {base n : Word} {b k i j x fuel : Nat} {buf : Chars} {ds : List Nat} {t : Nat}

theorem digitOf_digitChar (ht : t < 36) : digitOf (digitChar (BitVec.ofNat 32 t)) = some t := by
  have all : ∀ t : Fin 36, digitOf (digitChar (BitVec.ofNat 32 t)) = some t.val := by decide
  exact all ⟨t, ht⟩

theorem digitChar_eq_zero (ht : t < 36) (zero : digitChar (BitVec.ofNat 32 t) = chr '0') : t = 0 := by
  have value := digitOf_digitChar ht
  rw [zero] at value
  exact (Option.some.inj value).symm

theorem evaluate_reverse : evaluate b ds.reverse = Nat.ofDigits b ds := by
  rw [evaluate, List.foldl_reverse, Nat.ofDigits_eq_foldr]
  simp only [Nat.cast_id, add_comm]

theorem digits_of_chars (small : ∀ t ∈ ds, t < 36) :
    (ds.map fun t => digitChar (BitVec.ofNat 32 t)).filterMap digitOf = ds := by
  induction ds with
  | nil => rfl
  | cons t ds ih =>
    obtain ⟨ht, rest⟩ := List.forall_mem_cons.mp small
    rw [List.map_cons, List.filterMap_cons_some (digitOf_digitChar ht), ih rest]

/-- The numeral starts with a zero only when its digits, lowest first, end in one. -/
theorem numeral_leading (hb : 1 < base.toNat) (small : base.toNat ≤ 36)
    (zero : (numeral base n).head? = some (chr '0')) : numeral base n = [chr '0'] := by
  have digits : ∀ t ∈ lowDigits base.toNat n.toNat, t < 36 := fun t ht => (lowDigits_lt hb ht).trans_le small
  rw [numeral, List.head?_reverse, lowChars] at zero
  rw [numeral, lowChars]
  obtain ⟨cs, split⟩ := List.getLast?_eq_some_iff.mp zero
  obtain ⟨ds, last, same, rfl, one⟩ := List.map_eq_append_iff.mp split
  obtain ⟨t, rfl, ht⟩ := List.map_eq_singleton_iff.mp one
  have t_zero : t = 0 := digitChar_eq_zero (digits t (same ▸ by simp)) ht
  rw [t_zero] at same
  rw [lowDigits_leading same] at same
  rw [same]
  rfl

theorem numeral_isNumeral (hb : 1 < base.toNat) (small : base.toNat ≤ 36) :
    IsNumeral base.toNat n.toNat (numeral base n) where
  nonempty := List.ne_nil_of_length_pos (numeral_length_pos hb)
  digits := by
    intro c hc
    obtain ⟨t, ht, rfl⟩ := List.mem_map.mp (List.mem_reverse.mp hc)
    have below := lowDigits_lt hb ht
    exact ⟨t, below, digitOf_digitChar (below.trans_le small)⟩
  leading := numeral_leading hb small
  value := by
    have digits : ∀ t ∈ lowDigits base.toNat n.toNat, t < 36 := fun t ht => (lowDigits_lt hb ht).trans_le small
    rw [numeral, lowChars, List.filterMap_reverse, digits_of_chars digits, evaluate_reverse,
      ofDigits_lowDigits]

/-! ## The loops -/

theorem itoaLoop_fuel (hb : 1 < base.toNat) (enough : 32 ≤ fuel) :
    itoaLoop base fuel buf n 0 = (writeAt 0 (lowChars base n) buf, (numeral base n).length) := by
  obtain ⟨f, rfl⟩ : ∃ f, fuel = f + 1 := Nat.exists_eq_add_one_of_ne_zero (by omega)
  have bound : n.toNat < base.toNat ^ (f + 1) :=
    calc
      n.toNat < 2 ^ 32 := n.isLt
      _ ≤ 2 ^ (f + 1) := Nat.pow_le_pow_right Nat.two_pos enough
      _ ≤ base.toNat ^ (f + 1) := Nat.pow_le_pow_left hb _
  rw [itoaLoop_eq hb bound, zero_add, numeral_length]

/-- More rounds than 32 change nothing, so both loops have ended by then. -/
theorem itoaWithin_eq (hb : 1 < base.toNat) (enough : 32 ≤ fuel) :
    itoaWithin fuel buf n base = itoa buf n base := by
  have short : (numeral base n).length ≤ 32 := numeral_length_le hb
  rw [itoaWithin, itoa, itoaLoop_fuel hb enough, itoaLoop_fuel hb le_rfl]
  dsimp only
  rw [reverseLoop_eq (by omega), reverseLoop_eq (by omega)]

theorem digitIndices_eq (hb : 1 < base.toNat) (enough : n.toNat < base.toNat ^ (fuel + 1)) :
    digitIndices base (fuel + 1) n i = List.range' i (lowChars base n).length := by
  induction fuel generalizing n i with
  | zero =>
    have last : n / base = 0 := quotient_zero (by rwa [zero_add, pow_one] at enough)
    rw [lowChars_step hb, if_pos last, digitIndices, if_pos last]
    rfl
  | succ fuel ih =>
    rw [lowChars_step hb, digitIndices]
    obtain last | more := eq_or_ne (n / base) 0
    · rw [if_pos last, if_pos last]
      rfl
    · have smaller : (n / base).toNat < base.toNat ^ (fuel + 1) := quotient_lt enough
      rw [if_neg more, if_neg more, ih smaller, List.length_cons, List.range'_succ]

/-- The swaps move inwards. -/
theorem swapIndices_le (mem : x ∈ swapIndices fuel j i) : x ≤ i := by
  induction fuel generalizing j i with
  | zero => cases mem
  | succ fuel ih =>
    rw [swapIndices] at mem
    split at mem
    next order =>
      obtain rfl | mem := List.mem_cons.mp mem
      · exact order.le
      obtain rfl | mem := List.mem_cons.mp mem
      · exact le_rfl
      · exact (ih mem).trans (Nat.sub_le i 1)
    next => cases mem

/-- The places written are those of the numeral and its terminator. -/
theorem mem_itoaIndices (hb : 1 < base.toNat) :
    x ∈ itoaIndices n base ↔ x ≤ (numeral base n).length := by
  have enough : n.toNat < base.toNat ^ (31 + 1) := n.isLt.trans_le (Nat.pow_le_pow_left hb 32)
  have digits : digitIndices base 32 n 0 = _ := digitIndices_eq hb enough
  rw [itoaIndices, itoaLoop_fuel hb le_rfl, digits, ← numeral_length]
  simp only [List.mem_append, List.mem_range'_1, List.mem_cons]
  constructor
  · rintro (inside | rfl | swapped)
    · omega
    · exact le_rfl
    · exact (swapIndices_le swapped).trans (Nat.sub_le _ 1)
  · omega

theorem numeral_noZero (hb : 1 < base.toNat) (small : base.toNat ≤ 36) : 0 ∉ numeral base n := by
  intro zero
  obtain ⟨t, _, digit⟩ := (numeral_isNumeral hb small).digits 0 zero
  have noDigit : digitOf 0 = none := by decide
  rw [noDigit] at digit
  cases digit

/-- For every number and every base from 2 to 36, `itoa` leaves the numeral behind. -/
theorem itoa_writes_numeral (buf : Chars) (n base : Word) (low : 2 ≤ base.toNat)
    (high : base.toNat ≤ 36) : WritesNumeral buf n base where
  finishes _ enough := itoaWithin_eq low enough
  text := by
    refine ⟨numeral base n, numeral_isNumeral low high, numeral_noZero low high, fun i inside => ?_, ?_⟩
    · rw [itoa_eq low, writeAt_inside (by rw [List.length_append]; omega), List.getElem_append_left inside]
    · rw [itoa_eq low, writeAt_inside (by rw [List.length_append]; exact Nat.lt_succ_self _)]
      simp
  writes x mem := by
    have length := (mem_itoaIndices low).mp mem
    have short : (numeral base n).length ≤ 32 := numeral_length_le low
    omega
  keeps x away := by
    rw [mem_itoaIndices low, not_le] at away
    rw [itoa_eq low, writeAt_behind (by rw [List.length_append]; exact away)]

/-- The number 255 in base 16. -/
theorem itoa_writes_ff : WritesNumeral (fun _ => 0) 255 16 ∧ IsNumeral 16 255 [chr 'f', chr 'f'] := by
  refine ⟨itoa_writes_numeral _ 255 16 (by decide) (by decide), ?_⟩
  exact ⟨by decide, by decide, by decide, by decide⟩

end X86Os.Libc
