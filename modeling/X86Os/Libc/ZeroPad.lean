import X86Os.Libc.Compose
import X86Os.Libc.Decimal

/-!
# Numbers filled up with zeros

A format of one directive with a width. The digits are moved up inside `buf` and
the places in front of them filled, for three of the four letters.
-/

namespace X86Os.Libc

open Library.Memory Library.Buffer
set_option autoImplicit false

/-- `%0Nc` -/
def zeroDirective (N : Nat) (c : Byte) : Directive := .padded (numeral 10 (BitVec.ofNat 32 N)) c

def zeroFormat (N : Nat) (c : Byte) : List Directive := [zeroDirective N c]

/-- The sign, and the digits filled up to `N`. -/
def zeroPadded (N : Nat) (c : Byte) (v : Word) : List Byte :=
  signOf c v ++ (numeral (sysOf c) (uvalOf c v)).leftpad N (chr '0')

/-- These characters are shown on a stream, and are what a buffer receives. -/
structure ZeroPadOk (text : Word → CString) (N : Nat) (c : Byte) (v : Word) (arg : List Word)
    (mem : Mem) : Prop where
  shown : shownBy text ((zeroFormat N c).flatMap Directive.text) (v :: arg) mem = some (zeroPadded N c v)
  stored : ∀ str, str ≠ 0 → ∃ o,
    vsprintf text str ((zeroFormat N c).flatMap Directive.text) (v :: arg) mem = some o ∧
      o.mem = storeBytes mem str (zeroPadded N c v) ∧ o.pos.toNat = (zeroPadded N c v).length

variable {text : Word → CString} {N w : Nat} {c : Byte} {v : Word} {arg : List Word} {mem : Mem}

/-! ## The width -/

theorem digit_noLetter {x : Byte} (digit : IsDigit x) : x ≠ 0 ∧ isFormatLetter x = false := by
  obtain ⟨t, ht, rfl⟩ := digit
  have all : ∀ t : Fin 10, digitChar (BitVec.ofNat 32 t) ≠ 0 ∧
      isFormatLetter (digitChar (BitVec.ofNat 32 t)) = false := by decide
  exact all ⟨t, ht⟩

theorem number_letter (number : isNumber c = true) : isFormatLetter c = true := by
  simp only [isNumber, Bool.or_eq_true, beq_iff_eq] at number
  obtain ((rfl | rfl) | rfl) | rfl := number <;> decide

theorem number_pads (number : isNumber c = true) : pads c = true ↔ c ≠ chr 'u' := by
  simp only [isNumber, Bool.or_eq_true, beq_iff_eq] at number
  obtain ((rfl | rfl) | rfl) | rfl := number <;> decide

theorem zeroFormat_valid (number : isNumber c = true) : ∀ d ∈ zeroFormat N c, d.Valid := by
  rw [zeroFormat, List.forall_mem_singleton]
  exact ⟨fun x mem => digit_noLetter (numeral_digits x mem), number_letter number⟩

theorem width_short (small : N < bufSize) : (numeral 10 (BitVec.ofNat 32 N)).length < widthSize := by
  have size : bufSize = 512 := rfl
  have value : (BitVec.ofNat 32 N).toNat = N := by
    rw [BitVec.toNat_ofNat]
    omega
  have ten : (10 : Word).toNat = 10 := rfl
  rw [numeral_length, lowChars_length, value, ten, lowDigits]
  split
  · decide
  · have digits : (Nat.digits 10 N).length ≤ 3 := by
      rw [Nat.digits_length_le_iff (by decide)]
      omega
    exact Nat.lt_of_le_of_lt digits (by decide)

/-! ## The number -/

theorem start_padTo (small : N < bufSize) :
    (Shape.start.enter (zeroDirective N c)).padTo c v = some w ↔
      w = N ∧ pads c = true ∧ digitCount c v < N := by
  have size : bufSize = 512 := rfl
  have width : (Shape.start.enter (zeroDirective N c)).width = some N := by
    rw [zeroDirective, Shape.enter]
    dsimp only
    rw [atoi_numeral, BitVec.toNat_ofNat, Nat.mod_eq_of_lt (by omega)]
  rw [padTo_eq_some, width]
  constructor
  · rintro ⟨⟨⟩, padded⟩
    exact ⟨rfl, padded⟩
  · rintro ⟨rfl, padded⟩
    exact ⟨rfl, padded⟩

theorem gap_zeros {s : Shape} (padded : s.padTo c v = some w) (small : w < bufSize)
    (empty : s.marks = fun _ => false) : (s.print c v).gap = some w := by
  rw [Shape.gap, firstIndex_eq_some]
  refine ⟨small, ?_, ?_⟩
  · rw [print_padded padded, empty]
    simp
  · intro j inside
    rw [print_padded padded, decide_eq_true inside]
    rfl

theorem emit_zeros (text : Word → CString) (c : Byte) (v : Word) (arg : List Word) (small : N < bufSize) :
    ∃ l, emits text (zeroFormat N c) (.start (v :: arg)) =
      some (l, signOf c v ++ (numeral (sysOf c) (uvalOf c v)).leftpad (if pads c then N else 0) (chr '0')) := by
  have short : ∀ width c', zeroDirective N c = .padded width c' → width.length < widthSize := by
    rintro width c' ⟨⟩
    exact width_short small
  obtain ⟨l, n, run, -, -, gap, buf⟩ :=
    numberText_some (reflects_start.enter (d := zeroDirective N c)) (enter_arg.trans rfl : _ = v :: arg)
      fun w padded => ((start_padTo small).mp padded).1 ▸ small
  refine ⟨l, ?_⟩
  rw [zeroFormat, emits, emit_number rfl short, run]
  simp only [Option.bind_some, emits, Option.map_some, List.append_nil, buf]
  refine congrArg (fun cs => some (l, signOf c v ++ cs)) ?_
  rw [Shape.front]
  cases padded : (Shape.start.enter (zeroDirective N c)).padTo c v with
  | some w =>
    obtain ⟨rfl, pads, longer⟩ := (start_padTo small).mp padded
    rw [gap_zeros padded small (enter_marks.trans rfl)] at gap
    obtain rfl := Option.some.inj gap
    have length : (List.replicate (w - digitCount c v) (chr '0') ++
        numeral (sysOf c) (uvalOf c v)).length = w := by
      rw [List.length_append, List.length_replicate, ← digitCount]
      omega
    have whole := range_writeAt (List.replicate (w - digitCount c v) (chr '0') ++
      numeral (sysOf c) (uvalOf c v)) [] (Locals.start (v :: arg)).buf
    rw [length, List.append_nil] at whole
    rw [if_pos pads]
    exact whole
  | none =>
    rw [gap_print_plain padded] at gap
    obtain rfl := Option.some.inj gap
    have plain : (if pads c then N else 0) - digitCount c v = 0 := by
      split
      next pads =>
        by_contra longer
        have some := (start_padTo small).mpr ⟨rfl, pads, (by omega : digitCount c v < N)⟩
        rw [padded] at some
        cases some
      next => exact Nat.zero_sub _
    rw [List.leftpad, ← digitCount, plain]
    exact range_writeAt ..

theorem zeroPadded_length_lt (small : N < bufSize) : (zeroPadded N c v).length < 2 ^ 32 := by
  have size : bufSize = 512 := rfl
  have sign : (signOf c v).length ≤ 1 := signOf_length
  have count : digitCount c v ≤ 32 := digitCount_le
  rw [zeroPadded, List.leftpad, List.length_append, List.length_append, List.length_replicate,
    ← digitCount]
  omega

/-- The digits are filled up if and only if the letter is not `u` or there is nothing to fill. -/
theorem zeroPad_ok_iff (text : Word → CString) (v : Word) (arg : List Word) (mem : Mem)
    (number : isNumber c = true) (pos : 1 ≤ N) (small : N ≤ 511) :
    ZeroPadOk text N c v arg mem ↔ c ≠ chr 'u' ∨ N ≤ digitCount c v := by
  have bound : N < bufSize := Nat.lt_succ_of_le small
  have valid : ∀ d ∈ zeroFormat N c, d.Valid := zeroFormat_valid number
  obtain ⟨l, run⟩ := emit_zeros text c v arg bound
  have same : signOf c v ++ (numeral (sysOf c) (uvalOf c v)).leftpad (if pads c then N else 0) (chr '0') =
      zeroPadded N c v ↔ c ≠ chr 'u' ∨ N ≤ digitCount c v := by
    rw [zeroPadded, List.append_cancel_left_eq, List.leftpad, List.leftpad,
      List.append_cancel_right_eq, ← digitCount, List.replicate_left_inj]
    split
    next pads => simp [(number_pads number).mp pads]
    next plain =>
      have unsigned : c = chr 'u' := not_not.mp fun other => plain ((number_pads number).mpr other)
      have nothing : 0 - digitCount c v = N - digitCount c v ↔ N ≤ digitCount c v := by omega
      rw [nothing, or_iff_right (not_not.mpr unsigned)]
  rw [← same]
  constructor
  · rintro ⟨shown, -⟩
    obtain ⟨l', run'⟩ := (shownBy_eq valid).mp shown
    exact (Prod.mk.inj (Option.some.inj (run.symm.trans run'))).2
  · intro emitted
    rw [emitted] at run
    have length := zeroPadded_length_lt (c := c) (v := v) bound
    refine ⟨(shownBy_eq valid).mpr ⟨l, run⟩, fun str buffer => ?_⟩
    refine ⟨_, vsprintf_some valid run (.inr length.le), putText_mem buffer, putText_pos buffer length⟩

/-- `%08x` of 171 is `000000ab`. -/
theorem zeroPad_ok_iff_hex :
    ZeroPadOk noStrings 8 (chr 'x') 171 [] (fun _ => 0) ↔
      chr 'x' ≠ chr 'u' ∨ 8 ≤ digitCount (chr 'x') 171 :=
  zeroPad_ok_iff noStrings 171 [] (fun _ => 0) (by decide) (by decide) (by decide)

/-- `%03u` of 7 is `7`. -/
theorem zeroPad_unsigned : ¬ZeroPadOk noStrings 3 (chr 'u') 7 [] fun _ => 0 := by
  rintro ⟨shown, -⟩
  have one : shownBy noStrings ((zeroFormat 3 (chr 'u')).flatMap Directive.text) [7] (fun _ => 0) =
      some [chr '7'] := by decide +kernel
  rw [one] at shown
  exact absurd (Option.some.inj shown) (by decide +kernel)

end X86Os.Libc
