import X86Os.Libc.Emission

/-!
# What stands in the digit buffer

How many characters a number takes depends on the width in force and on the
places of `buf` that still hold a digit. Both follow from the widths and from the
digit counts of the arguments alone, so the length of the output and the formats
that stay within the arrays are known without running `vsprintf_helper`.
-/

namespace X86Os.Libc

open Library.Memory Library.Buffer
set_option autoImplicit false

/-- The width in force, and the places of `buf` where a character stands. -/
structure Shape where
  width : Option Nat
  marks : Nat → Bool

def Shape.start : Shape := ⟨none, fun _ => false⟩

def digitCount (c : Byte) (ival : Word) : Nat := (numeral (sysOf c) (uvalOf c ival)).length

def Directive.number : Directive → Option Byte
  | literal _ => none
  | plain c => if isNumber c then some c else none
  | padded _ c => some c

def Directive.needs : Directive → Nat
  | literal _ => 0
  | plain c => if isNumber c ∨ c = chr 'c' ∨ c = chr 's' then 1 else 0
  | padded _ _ => 1

namespace Shape

def padTo (s : Shape) (c : Byte) (ival : Word) : Option Nat :=
  s.width.filter fun w => pads c && digitCount c ival < w

/-- Behind a number: one that is filled up overwrites its own terminator. -/
def print (s : Shape) (c : Byte) (ival : Word) : Shape :=
  { s with
    marks := match s.padTo c ival with
      | some w => fun j => j < w || s.marks j
      | none => fun j => j < digitCount c ival || j != digitCount c ival && s.marks j }

/-- The width that a directive gives stays in force. -/
def enter (s : Shape) : Directive → Shape
  | .padded width _ => { s with width := some (atoi width).toNat }
  | _ => s

def after (s : Shape) (d : Directive) (arg : List Word) : Shape :=
  match d.number with
  | none => s
  | some c =>
    match arg with
    | [] => s.enter d
    | ival :: _ => (s.enter d).print c ival

def afterAll : Shape → List Directive → List Word → Shape
  | s, [], _ => s
  | s, d :: ds, arg => (s.after d arg).afterAll ds (arg.drop d.needs)

/-- The place of the first gap, where the printing of a number ends. -/
def gap (s : Shape) : Option Nat := firstIndex bufSize fun j => !s.marks j

end Shape

def Directive.count (text : Word → CString) (s : Shape) (arg : List Word) (d : Directive) : Nat :=
  match d.number with
  | some c =>
    match arg with
    | [] => 0
    | ival :: _ => (signOf c ival).length + ((s.enter d).print c ival).gap.getD 0
  | none =>
    match d with
    | .literal _ => 1
    | .padded _ _ => 0
    | .plain c =>
      match arg with
      | [] => 0
      | v :: _ => if c = chr 'c' then 1 else if c = chr 's' then (text v).bytes.length else 0

def count (text : Word → CString) : Shape → List Directive → List Word → Nat
  | _, [], _ => 0
  | s, d :: ds, arg => d.count text s arg + count text (s.after d arg) ds (arg.drop d.needs)

/-- No width is longer than `width_str`, and none that fills a number up reaches the end of `buf`. -/
def Directive.Fits (s : Shape) (arg : List Word) (d : Directive) : Prop :=
  (∀ width c, d = padded width c → width.length < widthSize) ∧
    ∀ c ival rest, d.number = some c → arg = ival :: rest →
      ∀ w, (s.enter d).padTo c ival = some w → w < bufSize

/-- The format stays within the arrays and has its arguments. -/
def Fits : Shape → List Directive → List Word → Prop
  | _, [], _ => True
  | s, d :: ds, arg =>
    d.Fits s arg ∧ d.needs ≤ arg.length ∧ Fits (s.after d arg) ds (arg.drop d.needs)

structure Reflects (s : Shape) (l : Locals) : Prop where
  sizeOverride : l.sizeOverride = s.width.isSome
  size : ∀ w, s.width = some w → l.size = w
  marks : ∀ j, s.marks j = (l.buf j != 0)
  room : s.marks (bufSize - 1) = false

variable {s : Shape} {l l' : Locals} {c : Byte} {ival : Word} {arg : List Word} {w n : Nat}
variable {d : Directive} {ds ds' : List Directive} {text : Word → CString}

theorem sysOf_cases (c : Byte) : sysOf c = 10 ∨ sysOf c = 16 := by
  rw [sysOf]
  split
  · exact .inl rfl
  · exact .inr rfl

theorem sysOf_bounds (c : Byte) : 1 < (sysOf c).toNat ∧ (sysOf c).toNat ≤ 16 := by
  obtain ten | sixteen := sysOf_cases c
  · rw [ten]
    decide
  · rw [sixteen]
    decide

theorem digitCount_le : digitCount c ival ≤ 32 := numeral_length_le (sysOf_bounds c).1

theorem padTo_eq_some : s.padTo c ival = some w ↔
    s.width = some w ∧ pads c = true ∧ digitCount c ival < w := by
  rw [Shape.padTo, Option.filter_eq_some_iff, Bool.and_eq_true, decide_eq_true_eq]

def Shape.front (s : Shape) (c : Byte) (ival : Word) : List Byte :=
  match s.padTo c ival with
  | some w =>
    List.replicate (w - digitCount c ival) (chr '0') ++ numeral (sysOf c) (uvalOf c ival)
  | none => numeral (sysOf c) (uvalOf c ival) ++ [0]

theorem writeAt_marks {cs : List Byte} {buf : Chars} (printed : ∀ c ∈ cs, c ≠ 0) (j : Nat) :
    (writeAt 0 cs buf j != 0) = (j < cs.length || buf j != 0) := by
  by_cases inside : j < cs.length
  · rw [writeAt_inside inside, decide_eq_true inside, Bool.true_or, bne_iff_ne]
    exact printed _ (List.getElem_mem inside)
  · rw [writeAt_behind (Nat.not_lt.mp inside), decide_eq_false inside, Bool.false_or]

theorem writeAt_marks_terminated {cs : List Byte} {buf : Chars} (printed : ∀ c ∈ cs, c ≠ 0) (j : Nat) :
    (writeAt 0 (cs ++ [0]) buf j != 0) = (j < cs.length || j != cs.length && buf j != 0) := by
  obtain inside | rfl | behind := lt_trichotomy j cs.length
  · have both : j < (cs ++ [0]).length := by
      rw [List.length_append]
      omega
    rw [writeAt_inside both, List.getElem_append_left inside, decide_eq_true inside, Bool.true_or,
      bne_iff_ne]
    exact printed _ (List.getElem_mem inside)
  · have both : cs.length < (cs ++ [0]).length := by
      rw [List.length_append]
      exact Nat.lt_succ_self _
    rw [writeAt_inside both]
    simp
  · have both : (cs ++ [0]).length ≤ j := by
      rw [List.length_append]
      exact behind
    rw [writeAt_behind both, decide_eq_false behind.not_gt, Bool.false_or, bne_iff_ne.mpr behind.ne',
      Bool.true_and]

theorem numeral_printed {c' : Byte} (mem : c' ∈ numeral (sysOf c) (uvalOf c ival)) : c' ≠ 0 :=
  numeral_ne_zero (sysOf_bounds c).1 (sysOf_bounds c).2 mem

/-- The buffer behind a number has the marks that its shape has. -/
theorem front_marks (marks : ∀ j, s.marks j = (l.buf j != 0)) (j : Nat) :
    (s.print c ival).marks j = (writeAt 0 (s.front c ival) l.buf j != 0) := by
  rw [Shape.print, Shape.front]
  cases padTo : s.padTo c ival with
  | none =>
    dsimp only
    rw [writeAt_marks_terminated fun _ => numeral_printed, marks]
    rfl
  | some w =>
    have longer := (padTo_eq_some.mp padTo).2.2
    have length : (List.replicate (w - digitCount c ival) (chr '0') ++
        numeral (sysOf c) (uvalOf c ival)).length = w := by
      rw [List.length_append, List.length_replicate, ← digitCount]
      omega
    dsimp only
    rw [writeAt_marks, length, marks]
    intro c' mem
    obtain zero | digit := List.mem_append.mp mem
    · rw [(List.mem_replicate.mp zero).2]
      decide
    · exact numeral_printed digit

theorem strlenIn_eq_gap {marks : Nat → Bool} {buf : Chars} {bound : Nat}
    (same : ∀ j, marks j = (buf j != 0)) :
    strlenIn bound buf = firstIndex bound fun j => !marks j := by
  apply firstIndex_congr
  intro j _
  rw [same, bne, Bool.not_not]

theorem strlenIn_terminated {cs : List Byte} {buf : Chars} {bound : Nat} (printed : ∀ c ∈ cs, c ≠ 0)
    (short : cs.length < bound) : strlenIn bound (writeAt 0 (cs ++ [0]) buf) = some cs.length := by
  rw [strlenIn_eq_gap fun j => (writeAt_marks_terminated printed j).symm, firstIndex_eq_some]
  refine ⟨short, by simp, ?_⟩
  intro j inside
  rw [decide_eq_true inside]
  rfl

theorem strlenIn_itoa {buf : Chars} :
    strlenIn bufSize (itoa buf (uvalOf c ival) (sysOf c)) = some (digitCount c ival) := by
  have short : digitCount c ival ≤ 32 := digitCount_le
  rw [itoa_eq (sysOf_bounds c).1]
  apply strlenIn_terminated fun _ => numeral_printed
  exact short.trans_lt (by decide)

theorem pads_iff (reflects : Reflects s l) :
    (pads c = true ∧ digitCount c ival < if l.sizeOverride then l.size else digitCount c ival) ↔
      ∃ w, s.padTo c ival = some w := by
  simp only [padTo_eq_some]
  rw [reflects.sizeOverride]
  cases width : s.width with
  | none => simp
  | some w =>
    simp only [Option.isSome_some, if_true, Option.some.injEq, reflects.size w width]
    constructor
    · exact fun h => ⟨w, rfl, h⟩
    · rintro ⟨_, rfl, h⟩
      exact h

theorem size_padded (reflects : Reflects s l) (padTo : s.padTo c ival = some w) :
    (if l.sizeOverride then l.size else digitCount c ival) = w := by
  have width := (padTo_eq_some.mp padTo).1
  rw [reflects.sizeOverride, width]
  exact reflects.size w width

theorem digits_eq (reflects : Reflects s l) (fits : ∀ w, s.padTo c ival = some w → w ≤ bufSize) :
    digits c ival l = (s.print c ival).gap.map fun n =>
      (writeAt 0 (s.front c ival) l.buf, if l.sizeOverride then l.size else digitCount c ival, n) := by
  have stop : strlenIn bufSize (writeAt 0 (s.front c ival) l.buf) = (s.print c ival).gap :=
    strlenIn_eq_gap (front_marks reflects.marks)
  have padded : padDigits c (digitCount c ival)
      (if l.sizeOverride then l.size else digitCount c ival)
      (itoa l.buf (uvalOf c ival) (sysOf c)) = some (writeAt 0 (s.front c ival) l.buf) := by
    rw [padDigits, itoa_eq (sysOf_bounds c).1]
    cases padTo : s.padTo c ival with
    | some w =>
      rw [if_pos ((pads_iff reflects).mpr ⟨w, padTo⟩), size_padded reflects padTo,
        if_pos (fits w padTo), Shape.front, padTo]
      exact congrArg some (fillFront_moveUp (padTo_eq_some.mp padTo).2.2)
    | none =>
      have plain : ¬∃ w, s.padTo c ival = some w := by simp [padTo]
      rw [if_neg fun pad => plain ((pads_iff reflects).mp pad), Shape.front, padTo]
  rw [digits, strlenIn_itoa]
  simp only [Option.bind_eq_bind, Option.bind_some, padded, stop]
  rw [Option.map_eq_bind]
  rfl

theorem digits_over (reflects : Reflects s l) (padTo : s.padTo c ival = some w) (above : bufSize < w) :
    digits c ival l = none := by
  have padded : padDigits c (digitCount c ival)
      (if l.sizeOverride then l.size else digitCount c ival)
      (itoa l.buf (uvalOf c ival) (sysOf c)) = none := by
    rw [padDigits, if_pos ((pads_iff reflects).mpr ⟨w, padTo⟩), size_padded reflects padTo,
      if_neg (Nat.not_le.mpr above)]
  rw [digits, strlenIn_itoa]
  simp only [Option.bind_eq_bind, Option.bind_some, padded, Option.bind_none]

theorem gap_exists (room : s.marks (bufSize - 1) = false) : ∃ n, s.gap = some n := by
  apply Option.ne_none_iff_exists'.mp
  intro none
  have mark := firstIndex_eq_none.mp none (bufSize - 1) (by decide)
  rw [room] at mark
  cases mark

theorem print_room (room : s.marks (bufSize - 1) = false)
    (fits : ∀ w, s.padTo c ival = some w → w < bufSize) :
    (s.print c ival).marks (bufSize - 1) = false := by
  have short : digitCount c ival ≤ 32 := digitCount_le
  have size : bufSize = 512 := rfl
  rw [Shape.print]
  cases padTo : s.padTo c ival with
  | none =>
    dsimp only
    rw [room, Bool.and_false, Bool.or_false, decide_eq_false_iff_not]
    omega
  | some w =>
    have := fits w padTo
    dsimp only
    rw [room, Bool.or_false, decide_eq_false_iff_not]
    omega

theorem numberText_some (reflects : Reflects s l) (given : l.arg = ival :: arg)
    (fits : ∀ w, s.padTo c ival = some w → w < bufSize) :
    ∃ l' n, numberText c l = some (l', signOf c ival ++ (List.range n).map l'.buf) ∧
      Reflects (s.print c ival) l' ∧ l'.arg = arg ∧ (s.print c ival).gap = some n ∧
      l'.buf = writeAt 0 (s.front c ival) l.buf := by
  have room := print_room reflects.room fits
  obtain ⟨n, gap⟩ := gap_exists room
  have run := digits_eq reflects fun w padTo => (fits w padTo).le
  rw [gap, Option.map_some] at run
  rw [numberText, given]
  simp only [run, Option.map_some]
  refine ⟨_, n, rfl, ⟨reflects.sizeOverride, ?_, front_marks reflects.marks, room⟩, rfl, gap, rfl⟩
  intro w width
  have override : l.sizeOverride = true := by
    rw [reflects.sizeOverride, show s.width = some w from width]
    rfl
  rw [override]
  exact reflects.size w width

/-- A number that is filled up to the end of `buf` or beyond leaves the array. -/
theorem numberText_none (reflects : Reflects s l) (given : l.arg = ival :: arg)
    (padTo : s.padTo c ival = some w) (above : bufSize ≤ w) : numberText c l = none := by
  have run : digits c ival l = none := by
    obtain end_ | beyond := above.eq_or_lt
    · have full : (s.print c ival).gap = none := by
        rw [Shape.gap, firstIndex_eq_none]
        intro j inside
        rw [Shape.print, padTo, ← end_]
        dsimp only
        rw [decide_eq_true inside, Bool.true_or, Bool.not_true]
      rw [digits_eq reflects, full, Option.map_none]
      intro w' same
      rw [padTo] at same
      rw [end_, Option.some.inj same]
    · exact digits_over reflects padTo beyond
  rw [numberText, given]
  simp only [run, Option.map_none]

def Locals.enter (l : Locals) : Directive → Locals
  | .padded width _ => { l with sizeOverride := true, size := (atoi width).toNat }
  | _ => l

theorem Reflects.enter (reflects : Reflects s l) : Reflects (s.enter d) (l.enter d) := by
  cases d with
  | literal c => exact reflects
  | plain c => exact reflects
  | padded width c =>
    refine ⟨rfl, ?_, reflects.marks, reflects.room⟩
    rintro w ⟨⟩
    rfl

theorem enter_arg : (l.enter d).arg = l.arg := by
  cases d <;> rfl

theorem enter_buf : (l.enter d).buf = l.buf := by
  cases d <;> rfl

theorem needs_number (number : d.number = some c) : d.needs = 1 := by
  cases d with
  | literal c => cases number
  | plain c' =>
    rw [Directive.number, Option.ite_none_right_eq_some] at number
    rw [Directive.needs, if_pos (.inl number.1)]
  | padded width c => rfl

/-- What a directive for a number emits once its width is in force. -/
theorem emit_number (number : d.number = some c)
    (short : ∀ width c, d = .padded width c → width.length < widthSize) :
    d.emit text l = numberText c (l.enter d) := by
  cases d with
  | literal c => cases number
  | plain c' =>
    rw [Directive.number, Option.ite_none_right_eq_some] at number
    obtain ⟨isNumber, same⟩ := number
    obtain rfl := Option.some.inj same
    rw [Directive.emit, if_pos isNumber]
    rfl
  | padded width c' =>
    obtain rfl := Option.some.inj number
    rw [Directive.emit, if_pos (short width c' rfl)]
    rfl

theorem plain_noNumber (other : (Directive.plain c).number = none) : isNumber c = false := by
  by_contra number
  rw [Directive.number, if_pos (Bool.eq_true_of_not_eq_false number)] at other
  cases other

def shownArg (text : Word → CString) (c : Byte) (v : Word) : List Byte :=
  if c = chr 'c' then [v.setWidth 8] else (text v).bytes

/-- Of the conversions without a number, `%c` and `%s` take and show an argument. -/
theorem emit_plain_iff {cs : List Byte} (noNumber : isNumber c = false) :
    (Directive.plain c).emit text l = some (l', cs) ↔
      (c = chr 'c' ∨ c = chr 's') ∧
          (∃ v rest, l.arg = v :: rest ∧ l' = { l with arg := rest } ∧ cs = shownArg text c v) ∨
        ¬(c = chr 'c' ∨ c = chr 's') ∧ l' = l ∧ cs = [] := by
  rw [Directive.emit, noNumber, if_neg Bool.false_ne_true]
  obtain ⟨buf, size, sizeOverride, arg⟩ := l
  split
  next char => cases arg <;> simp [shownArg, char, eq_comm]
  next noChar =>
    split
    next string =>
      have shown : ∀ v, shownArg text c v = (text v).bytes := fun _ => if_neg noChar
      simp only [shown]
      cases arg <;> simp [string, eq_comm]
    next noString => simp [noChar, noString, eq_comm]

/-- The other directives leave the digit buffer alone, and emit what depends on their argument only. -/
theorem emit_other (text : Word → CString) (s : Shape) (other : d.number = none)
    (enough : d.needs ≤ arg.length) :
    ∃ cs, (∀ l : Locals, l.arg = arg →
      d.emit text l = some ({ l with arg := arg.drop d.needs }, cs)) ∧
        cs.length = d.count text s arg := by
  cases d with
  | literal c =>
    refine ⟨[c], ?_, rfl⟩
    rintro l rfl
    rfl
  | padded width c => cases other
  | plain c =>
    have noNumber := plain_noNumber other
    simp only [Directive.count, Directive.number, Directive.needs, noNumber, Bool.false_eq_true,
      if_false, false_or] at enough ⊢
    split at enough
    next shows =>
      obtain ⟨v, rest, rfl⟩ := List.exists_cons_of_length_pos enough
      refine ⟨shownArg text c v, ?_, ?_⟩
      · intro l given
        rw [if_pos shows]
        exact (emit_plain_iff noNumber).mpr (.inl ⟨shows, v, rest, given, rfl, rfl⟩)
      · rw [shownArg, apply_ite List.length]
        obtain rfl | rfl := shows <;> rfl
    next silent =>
      refine ⟨[], ?_, ?_⟩
      · rintro l rfl
        rw [if_neg silent]
        exact (emit_plain_iff noNumber).mpr (.inr ⟨silent, rfl, rfl⟩)
      · rw [not_or] at silent
        cases arg with
        | nil => rfl
        | cons v rest =>
          dsimp only
          rw [if_neg silent.1, if_neg silent.2]
          rfl

theorem after_number (number : d.number = some c) :
    s.after d (ival :: arg) = (s.enter d).print c ival := by
  rw [Shape.after, number]

theorem count_number (number : d.number = some c) : d.count text s (ival :: arg) =
    (signOf c ival).length + ((s.enter d).print c ival).gap.getD 0 := by
  unfold Directive.count
  rw [number]

theorem after_other (other : d.number = none) : s.after d arg = s := by
  rw [Shape.after, other]

theorem emit_some (text : Word → CString) (reflects : Reflects s l) (fits : d.Fits s l.arg)
    (enough : d.needs ≤ l.arg.length) :
    ∃ l' cs, d.emit text l = some (l', cs) ∧ Reflects (s.after d l.arg) l' ∧
      l'.arg = l.arg.drop d.needs ∧ cs.length = d.count text s l.arg := by
  cases number : d.number with
  | none =>
    obtain ⟨cs, run, length⟩ := emit_other text s number enough
    refine ⟨_, cs, run l rfl, ?_, rfl, length⟩
    rw [after_other number]
    exact { reflects with }
  | some c =>
    rw [needs_number number] at enough ⊢
    obtain ⟨ival, arg, given⟩ := List.exists_cons_of_length_pos enough
    have entered : (l.enter d).arg = ival :: arg := enter_arg.trans given
    obtain ⟨l', n, run, reflects', rest, gap, _⟩ :=
      numberText_some reflects.enter entered (fits.2 c ival arg number given)
    refine ⟨l', _, (emit_number number fits.1).trans run, ?_, ?_, ?_⟩
    · rw [given, after_number number]
      exact reflects'
    · rw [rest, given]
      rfl
    · rw [List.length_append, List.length_map, List.length_range, given, count_number number, gap,
        Option.getD_some]

/-- A format that stays within the arrays is emitted, with as many characters as counted. -/
theorem emits_some (text : Word → CString) (reflects : Reflects s l) (fits : Fits s ds l.arg) :
    ∃ l' cs, emits text ds l = some (l', cs) ∧ Reflects (s.afterAll ds l.arg) l' ∧
      l'.arg = l.arg.drop (ds.map Directive.needs).sum ∧ cs.length = count text s ds l.arg := by
  induction ds generalizing s l with
  | nil => exact ⟨l, [], rfl, reflects, rfl, rfl⟩
  | cons d ds ih =>
    obtain ⟨fitsD, enough, fitsDs⟩ := fits
    obtain ⟨l₁, cs₁, first, reflects₁, rest₁, length₁⟩ := emit_some text reflects fitsD enough
    rw [← rest₁] at fitsDs
    obtain ⟨l₂, cs₂, second, reflects₂, rest₂, length₂⟩ := ih reflects₁ fitsDs
    rw [rest₁] at reflects₂
    refine ⟨l₂, cs₁ ++ cs₂, ?_, reflects₂, ?_, ?_⟩
    · rw [emits, first, Option.bind_some, second]
      rfl
    · rw [rest₂, rest₁, List.drop_drop, List.map_cons, List.sum_cons]
    · rw [List.length_append, length₁, length₂, rest₁, count]

theorem numberText_arg {r : Locals × List Byte} (run : numberText c l = some r) :
    ∃ ival arg, l.arg = ival :: arg := by
  obtain ⟨buf, size, sizeOverride, arg⟩ := l
  cases arg with
  | nil => cases run
  | cons ival arg => exact ⟨ival, arg, rfl⟩

theorem emit_needs {r : Locals × List Byte} (other : d.number = none)
    (run : d.emit text l = some r) : d.needs ≤ l.arg.length := by
  obtain ⟨buf, size, sizeOverride, arg⟩ := l
  cases arg with
  | cons v arg =>
    have one : d.needs ≤ 1 := by
      cases d with
      | literal c => exact Nat.zero_le 1
      | padded width c => exact le_rfl
      | plain c =>
        rw [Directive.needs]
        split
        · exact le_rfl
        · exact Nat.zero_le 1
    exact one.trans (Nat.le_add_left 1 arg.length)
  | nil =>
    cases d with
    | literal c => exact le_rfl
    | padded width c => cases other
    | plain c =>
      rw [Directive.needs]
      split
      next takes =>
        rw [Directive.emit] at run
        obtain number | char | string := takes
        · rw [Directive.number, if_pos number] at other
          cases other
        · simp only [char] at run
          cases run
        · simp only [string] at run
          cases run
      next => exact le_rfl

theorem emit_fits {r : Locals × List Byte} (reflects : Reflects s l) (run : d.emit text l = some r) :
    d.Fits s l.arg ∧ d.needs ≤ l.arg.length := by
  cases number : d.number with
  | none =>
    refine ⟨⟨?_, ?_⟩, emit_needs number run⟩
    · rintro width c rfl
      cases number
    · intro c ival rest some
      rw [number] at some
      cases some
  | some c =>
    have short : ∀ width c, d = .padded width c → width.length < widthSize := by
      rintro width c rfl
      rw [Directive.emit, Option.ite_none_right_eq_some] at run
      exact run.1
    rw [emit_number number short] at run
    obtain ⟨ival, arg, given⟩ := numberText_arg run
    rw [enter_arg] at given
    refine ⟨⟨short, ?_⟩, ?_⟩
    · intro c' ival' arg' number' given' w padTo
      obtain rfl := Option.some.inj (number.symm.trans number')
      by_contra above
      have entered : (l.enter d).arg = ival' :: arg' := enter_arg.trans given'
      rw [numberText_none reflects.enter entered padTo (Nat.not_lt.mp above)] at run
      cases run
    · rw [needs_number number, given]
      exact Nat.succ_pos _

theorem emits_fits {r : Locals × List Byte} (reflects : Reflects s l)
    (run : emits text ds l = some r) : Fits s ds l.arg := by
  induction ds generalizing s l r with
  | nil => trivial
  | cons d ds ih =>
    rw [emits] at run
    obtain ⟨⟨l₁, cs₁⟩, first, run⟩ := Option.bind_eq_some_iff.mp run
    obtain ⟨r₂, second, _⟩ := Option.map_eq_some_iff.mp run
    obtain ⟨fits, enough⟩ := emit_fits reflects first
    obtain ⟨l', cs, first', reflects', rest, _⟩ := emit_some text reflects fits enough
    obtain ⟨rfl, rfl⟩ := Prod.mk.inj (Option.some.inj (first'.symm.trans first))
    have fitsDs := ih reflects' second
    rw [rest] at fitsDs
    exact ⟨fits, enough, fitsDs⟩

theorem print_padded (padded : s.padTo c ival = some w) (j : Nat) :
    (s.print c ival).marks j = (j < w || s.marks j) := by
  rw [Shape.print, padded]

theorem print_plain (plain : s.padTo c ival = none) (j : Nat) :
    (s.print c ival).marks j =
      (j < digitCount c ival || j != digitCount c ival && s.marks j) := by
  rw [Shape.print, plain]

theorem gap_print_plain (plain : s.padTo c ival = none) :
    (s.print c ival).gap = some (digitCount c ival) := by
  have short : digitCount c ival ≤ 32 := digitCount_le
  rw [Shape.gap, firstIndex_eq_some]
  refine ⟨short.trans_lt (by decide), ?_, ?_⟩
  · rw [print_plain plain]
    simp
  · intro j inside
    rw [print_plain plain, decide_eq_true inside]
    rfl

theorem reflects_start : Reflects .start (.start arg) where
  sizeOverride := rfl
  size := by
    rintro w ⟨⟩
  marks _ := rfl
  room := rfl

end X86Os.Libc
