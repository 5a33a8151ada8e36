import X86Os.Libc.Vsprintf

/-!
# Printing and reading a number

`%d` prints the sign and the digits of a number, and `atoi` adds the digits up
from the highest one on. For the least number both the negation in the printer and
the sum in the reader wrap around, to the same value.
-/

namespace X86Os.Libc

open Library.Memory Library.Buffer
set_option autoImplicit false

variable {c : Byte} {cs cs' ds : List Byte} {n r v : Word} {t : Nat} {text : Word → CString}
variable {arg : List Word} {mem : Mem}

def decimalFormat : List Directive := [.plain (chr 'd')]

theorem decimalFormat_valid : ∀ d ∈ decimalFormat, d.Valid := by
  rw [decimalFormat, List.forall_mem_singleton]
  exact ⟨by decide, by decide⟩

/-! ## Reading -/

def IsDigit (c : Byte) : Prop := ∃ t < 10, c = digitChar (BitVec.ofNat 32 t)

theorem digit_value (ht : t < 10) :
    (digitChar (BitVec.ofNat 32 t)).signExtend 32 - (chr '0').signExtend 32 = BitVec.ofNat 32 t := by
  have all : ∀ t : Fin 10, (digitChar (BitVec.ofNat 32 t)).signExtend 32 - (chr '0').signExtend 32 =
      BitVec.ofNat 32 t := by decide
  exact all ⟨t, ht⟩

theorem digit_plain (digit : IsDigit c) : isspace c = false ∧ c ≠ chr '-' ∧ c ≠ chr '+' := by
  obtain ⟨t, ht, rfl⟩ := digit
  have all : ∀ t : Fin 10, isspace (digitChar (BitVec.ofNat 32 t)) = false ∧
      digitChar (BitVec.ofNat 32 t) ≠ chr '-' ∧ digitChar (BitVec.ofNat 32 t) ≠ chr '+' := by decide
  exact all ⟨t, ht⟩

theorem atoiDigits_digit (ht : t < 10) :
    atoiDigits r (digitChar (BitVec.ofNat 32 t) :: cs) = atoiDigits (10 * r + BitVec.ofNat 32 t) cs := by
  have small : ¬BitVec.ofNat 32 t > 9 := by
    rw [gt_iff_lt, BitVec.lt_def, BitVec.toNat_ofNat]
    simp
    omega
  rw [atoiDigits, digit_value ht, if_neg small]

theorem atoiDigits_append (digits : ∀ c ∈ cs, IsDigit c) :
    atoiDigits r (cs ++ cs') = atoiDigits (atoiDigits r cs) cs' := by
  induction cs generalizing r with
  | nil => rfl
  | cons c cs ih =>
    obtain ⟨⟨t, ht, rfl⟩, rest⟩ := List.forall_mem_cons.mp digits
    rw [List.cons_append, atoiDigits_digit ht, ih rest, atoiDigits_digit ht]

/-- The digits are written lowest first and read highest first. -/
theorem atoiDigits_reverse {ds : List Nat} (small : ∀ t ∈ ds, t < 10) :
    atoiDigits 0 (ds.map fun t => digitChar (BitVec.ofNat 32 t)).reverse =
      BitVec.ofNat 32 (Nat.ofDigits 10 ds) := by
  induction ds with
  | nil => rfl
  | cons t ds ih =>
    obtain ⟨ht, rest⟩ := List.forall_mem_cons.mp small
    have digits : ∀ c ∈ (ds.map fun t => digitChar (BitVec.ofNat 32 t)).reverse, IsDigit c := by
      intro c hc
      obtain ⟨t, mem, rfl⟩ := List.mem_map.mp (List.mem_reverse.mp hc)
      exact ⟨t, rest t mem, rfl⟩
    rw [List.map_cons, List.reverse_cons, atoiDigits_append digits, atoiDigits_digit ht, ih rest,
      atoiDigits, Nat.ofDigits_cons, BitVec.ofNat_add, BitVec.ofNat_mul, add_comm]
    rfl

theorem numeral_digits : ∀ c ∈ numeral 10 n, IsDigit c := by
  intro c hc
  obtain ⟨t, mem, rfl⟩ := List.mem_map.mp (List.mem_reverse.mp hc)
  exact ⟨t, lowDigits_lt (by decide) mem, rfl⟩

theorem atoiDigits_numeral (n : Word) : atoiDigits 0 (numeral 10 n) = n := by
  have value := atoiDigits_reverse fun t (mem : t ∈ lowDigits 10 n.toNat) => lowDigits_lt (by decide) mem
  rw [ofDigits_lowDigits, BitVec.ofNat_toNat, BitVec.setWidth_eq] at value
  exact value

theorem atoi_digits (digits : ∀ x ∈ c :: cs, IsDigit x) : atoi (c :: cs) = atoiDigits 0 (c :: cs) := by
  obtain ⟨visible, minus, plus⟩ := digit_plain (digits c List.mem_cons_self)
  rw [atoi, List.dropWhile_cons_of_neg (by simp [visible])]
  exact (if_neg minus).trans (if_neg plus)

theorem atoi_numeral (n : Word) : atoi (numeral 10 n) = n := by
  obtain ⟨c, cs, eq⟩ : ∃ c cs, numeral 10 n = c :: cs :=
    List.exists_cons_of_length_pos (numeral_length_pos (by decide))
  have value := atoiDigits_numeral n
  rw [eq] at value ⊢
  rwa [atoi_digits (eq ▸ numeral_digits)]

theorem atoi_minus (cs : List Byte) : atoi (chr '-' :: cs) = -atoiDigits 0 cs := by
  have visible : isspace (chr '-') = false := by decide
  rw [atoi, List.dropWhile_cons_of_neg (by simp [visible])]
  exact if_pos rfl

/-! ## Printing -/

def decimal (v : Word) : List Byte := signOf (chr 'd') v ++ numeral 10 (uvalOf (chr 'd') v)

theorem atoi_decimal (v : Word) : atoi (decimal v) = v := by
  rw [decimal, signOf, uvalOf]
  split
  next negative =>
    rw [List.singleton_append, atoi_minus, atoiDigits_numeral, neg_neg]
  next => rw [List.nil_append, atoi_numeral]

theorem decimal_noZero : 0 ∉ decimal v := by
  rw [decimal, List.mem_append, not_or]
  refine ⟨sign_printed, ?_⟩
  intro zero
  exact numeral_ne_zero (by decide) (by decide) zero rfl

theorem decimal_length : (decimal v).length ≤ 33 := by
  have sign : (signOf (chr 'd') v).length ≤ 1 := signOf_length
  have digits : (numeral 10 (uvalOf (chr 'd') v)).length ≤ 32 := numeral_length_le (by decide)
  rw [decimal, List.length_append]
  omega

theorem range_writeAt (cs cs' : List Byte) (buf : Chars) :
    (List.range cs.length).map (writeAt 0 (cs ++ cs') buf) = cs := by
  apply List.ext_getElem
  · rw [List.length_map, List.length_range]
  · intro i _ inside
    have both : i < (cs ++ cs').length := by
      rw [List.length_append]
      omega
    rw [List.getElem_map, List.getElem_range, writeAt_inside both, List.getElem_append_left inside]

theorem decimal_emits :
    ∃ l, emits text decimalFormat (.start (v :: arg)) = some (l, decimal v) := by
  have plain : Shape.start.padTo (chr 'd') v = none := rfl
  have fits : ∀ w, Shape.start.padTo (chr 'd') v = some w → w < bufSize := by
    rw [plain]
    rintro w ⟨⟩
  obtain ⟨l, n, run, _, _, gap, buf⟩ := numberText_some reflects_start (rfl : _ = v :: arg) fits
  rw [gap_print_plain plain] at gap
  obtain rfl := Option.some.inj gap
  rw [Shape.front, plain] at buf
  rw [buf] at run
  have printed : numberText (chr 'd') (.start (v :: arg)) = some (l, decimal v) :=
    run.trans (congrArg (fun cs => some (l, signOf (chr 'd') v ++ cs)) (range_writeAt ..))
  refine ⟨l, ?_⟩
  show (numberText (chr 'd') (.start (v :: arg))).bind _ = _
  rw [printed]
  exact congrArg (fun cs => some (l, cs)) (List.append_nil _)

/-- What `%d` prints, on a stream or to a buffer, reads back as its argument. -/
theorem decimal_round_trip (text : Word → CString) (v : Word) (arg : List Word) (mem : Mem) :
    ∃ chars, shownBy text (decimalFormat.flatMap Directive.text) (v :: arg) mem = some chars ∧
      0 ∉ chars ∧ atoi chars = v ∧
      ∀ str, str ≠ 0 → ∃ o,
        vsprintf text str (decimalFormat.flatMap Directive.text) (v :: arg) mem = some o ∧
          loadBytes o.mem str o.pos.toNat = chars := by
  obtain ⟨l, run⟩ : ∃ l, emits text decimalFormat (.start (v :: arg)) = some (l, decimal v) :=
    decimal_emits
  refine ⟨decimal v, ?_, decimal_noZero, atoi_decimal v, ?_⟩
  · rw [shownBy, vsprintf_stream decimalFormat_valid, run]
    rfl
  · intro str buffer
    have small : (decimal v).length < 2 ^ 32 := decimal_length.trans_lt (by decide)
    refine ⟨_, vsprintf_some decimalFormat_valid run (.inr small.le), ?_⟩
    rw [putText_mem buffer, putText_pos buffer small]
    exact loadBytes_storeBytes small.le

/-- The least number, which is its own negation. -/
theorem decimal_round_trip_least :
    ∃ chars, shownBy noStrings (decimalFormat.flatMap Directive.text) [0x80000000] (fun _ => 0) =
        some chars ∧ atoi chars = 0x80000000 ∧
      ∃ o, vsprintf noStrings 0x5000 (decimalFormat.flatMap Directive.text) [0x80000000]
        (fun _ => 0) = some o ∧ loadBytes o.mem 0x5000 o.pos.toNat = chars := by
  obtain ⟨chars, shown, _, value, stored⟩ := decimal_round_trip noStrings 0x80000000 [] fun _ => 0
  exact ⟨chars, shown, value, stored 0x5000 (by decide)⟩

end X86Os.Libc
