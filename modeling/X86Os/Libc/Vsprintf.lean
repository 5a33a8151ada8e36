import X86Os.Libc.Standing

/-!
# What vsprintf leaves in its buffer

The buffer receives the characters that a stream shows, and nothing else: no
branch writes a terminator, so the buffer holds a C string only when a zero
stood behind the output before the call.
-/

namespace X86Os.Libc

open Library.Memory Library.Buffer
set_option autoImplicit false

/-- A width with at most nine digits that stays below the size of the digit buffer. -/
def Directive.WidthFits : Directive → Prop
  | padded width _ => width.length ≤ 9 ∧ (atoi width).toNat ≤ 511
  | _ => True

def shownBy (text : Word → CString) (format : List Byte) (arg : List Word) (mem : Mem) :
    Option (List Byte) :=
  (vsprintf text 0 format arg mem).map Output.shown

structure IsCString (m : Mem) (a : Word) (cs : List Byte) : Prop where
  chars : loadBytes m a cs.length = cs
  noZero : 0 ∉ cs
  terminated : m (a + BitVec.ofNat 32 cs.length) = 0

/-- No `%c` prints the terminator itself. -/
def NoZeroChar : List Directive → List Word → Prop
  | [], _ => True
  | d :: ds, arg =>
    (d = .plain (chr 'c') → ∀ v rest, arg = v :: rest → v.setWidth 8 ≠ (0 : Byte)) ∧
      NoZeroChar ds (arg.drop d.needs)

variable {str : Word} {text : Word → CString} {d : Directive} {ds : List Directive} {s : Shape}
variable {l l' : Locals} {arg : List Word} {mem : Mem} {cs : List Byte}

theorem after_width : (s.after d arg).width = (s.enter d).width := by
  cases number : d.number with
  | some c => rw [Shape.after, number]; cases arg <;> rfl
  | none =>
    rw [after_other number]
    cases d with
    | literal c => rfl
    | plain c => rfl
    | padded width c => cases number

theorem enter_bounded (bounded : ∀ w, s.width = some w → w < bufSize) (fits : d.WidthFits) {w : Nat}
    (width : (s.enter d).width = some w) : w < bufSize := by
  cases d with
  | literal c => exact bounded w width
  | plain c => exact bounded w width
  | padded digits c =>
    obtain rfl := Option.some.inj width
    exact fits.2.trans_lt (by decide)

theorem fits_of_widths (bounded : ∀ w, s.width = some w → w < bufSize)
    (widths : ∀ d ∈ ds, d.WidthFits) (enough : (ds.map Directive.needs).sum ≤ arg.length) :
    Fits s ds arg := by
  induction ds generalizing s arg with
  | nil => trivial
  | cons d ds ih =>
    obtain ⟨width, widths⟩ := List.forall_mem_cons.mp widths
    rw [List.map_cons, List.sum_cons] at enough
    refine ⟨⟨?_, ?_⟩, by omega, ?_⟩
    · rintro digits c rfl
      exact width.1.trans_lt (by decide)
    · intro c ival rest _ _ w padTo
      exact enter_bounded bounded width (padTo_eq_some.mp padTo).1
    · refine ih (fun w after => ?_) widths ?_
      · rw [after_width] at after
        exact enter_bounded bounded width after
      · rw [List.length_drop]
        omega

theorem putText_mem (buffer : str ≠ 0) :
    (putText str cs ⟨mem, 0, []⟩).mem = storeBytes mem str cs := by
  rw [putText, if_pos buffer, add_zero]

theorem putText_pos (buffer : str ≠ 0) (small : cs.length < 2 ^ 32) :
    (putText str cs ⟨mem, 0, []⟩).pos.toNat = cs.length := by
  rw [putText, if_pos buffer]
  dsimp only
  rw [zero_add, BitVec.toNat_ofNat, Nat.mod_eq_of_lt small]

/-- A buffer holds the characters that a stream shows, as long as they fit into memory. -/
theorem buffer_matches_stream (valid : ∀ d ∈ ds, d.Valid) (widths : ∀ d ∈ ds, d.WidthFits)
    (enough : (ds.map Directive.needs).sum ≤ arg.length) (buffer : str ≠ 0) :
    ∃ chars, shownBy text (ds.flatMap Directive.text) arg mem = some chars ∧
      (chars.length < 2 ^ 32 → ∃ o, vsprintf text str (ds.flatMap Directive.text) arg mem = some o ∧
        o.mem = storeBytes mem str chars ∧ loadBytes o.mem str o.pos.toNat = chars ∧
        o.pos.toNat = chars.length) := by
  have fits : Fits .start ds arg := fits_of_widths (by rintro w ⟨⟩) widths enough
  obtain ⟨l, chars, run, _⟩ := emits_some text reflects_start fits
  refine ⟨chars, ?_, fun small => ⟨_, vsprintf_some valid run (.inr small.le), ?_⟩⟩
  · rw [shownBy, vsprintf_stream valid, run]
    rfl
  · rw [putText_mem buffer, putText_pos buffer small]
    exact ⟨rfl, loadBytes_storeBytes small.le, rfl⟩

/-- The format "a%04x%d". -/
def sampleFormat : List Directive :=
  [.literal (chr 'a'), .padded [chr '0', chr '4'] (chr 'x'), .plain (chr 'd')]

def noStrings : Word → CString := fun _ => ⟨[], List.not_mem_nil⟩

theorem sampleFormat_valid : ∀ d ∈ sampleFormat, d.Valid := by
  simp only [sampleFormat, List.forall_mem_cons, Directive.Valid]
  refine ⟨by decide, ⟨by decide, by decide⟩, by decide, fun _ none => absurd none List.not_mem_nil⟩

theorem buffer_matches_stream_sample :
    ∃ chars, shownBy noStrings (sampleFormat.flatMap Directive.text) [0xAB, 5] (fun _ => 0) = some chars ∧
      (chars.length < 2 ^ 32 → ∃ o, vsprintf noStrings 0x5000 (sampleFormat.flatMap Directive.text)
        [0xAB, 5] (fun _ => 0) = some o ∧ o.mem = storeBytes (fun _ => 0) 0x5000 chars ∧
        loadBytes o.mem 0x5000 o.pos.toNat = chars ∧ o.pos.toNat = chars.length) := by
  apply buffer_matches_stream sampleFormat_valid ?_ (by decide) (by decide)
  simp only [sampleFormat, List.forall_mem_cons, Directive.WidthFits]
  refine ⟨trivial, by decide, trivial, fun _ none => absurd none List.not_mem_nil⟩

/-! ## The terminator -/

theorem number_printed {n : Nat} (reflects : Reflects s l) (gap : s.gap = some n) :
    (0 : Byte) ∉ (List.range n).map l.buf := by
  intro zero
  obtain ⟨j, inside, eq⟩ := List.mem_map.mp zero
  have mark := (firstIndex_eq_some.mp gap).2.2 j (List.mem_range.mp inside)
  rw [reflects.marks, eq] at mark
  cases mark

theorem sign_printed {c : Byte} {ival : Word} : (0 : Byte) ∉ signOf c ival := by
  rw [signOf]
  split
  · decide
  · exact List.not_mem_nil

/-- A directive emits a zero only as the character of a `%c`. -/
theorem emit_noZero (reflects : Reflects s l) (valid : d.Valid) (run : d.emit text l = some (l', cs)) :
    0 ∉ cs ↔ (d = .plain (chr 'c') → ∀ v rest, l.arg = v :: rest → v.setWidth 8 ≠ (0 : Byte)) := by
  obtain ⟨fits, enough⟩ := emit_fits reflects run
  cases number : d.number with
  | some c =>
    rw [needs_number number] at enough
    obtain ⟨ival, arg, given⟩ := List.exists_cons_of_length_pos enough
    have entered : (l.enter d).arg = ival :: arg := enter_arg.trans given
    obtain ⟨l₁, n, text₁, reflects₁, _, gap, _⟩ :=
      numberText_some reflects.enter entered (fits.2 c ival arg number given)
    rw [emit_number number fits.1, text₁] at run
    obtain ⟨rfl, rfl⟩ := Prod.mk.inj (Option.some.inj run)
    refine iff_of_true ?_ ?_
    · rw [List.mem_append, not_or]
      exact ⟨sign_printed, number_printed reflects₁ gap⟩
    · rintro rfl
      cases number
  | none =>
    cases d with
    | literal c =>
      obtain ⟨_, rfl⟩ := Prod.mk.inj (Option.some.inj run)
      refine iff_of_true ?_ ?_
      · rw [List.mem_singleton]
        exact valid.1.symm
      · rintro ⟨⟩
    | padded width c => cases number
    | plain c =>
      obtain ⟨shows, v, rest, given, _, rfl⟩ | ⟨silent, _, rfl⟩ :=
        (emit_plain_iff (plain_noNumber number)).mp run
      · obtain rfl | rfl := shows
        · simp [shownArg, given, eq_comm]
        · refine iff_of_true (text v).terminated ?_
          intro char
          exact absurd (Directive.plain.inj char) (by decide)
      · refine iff_of_true List.not_mem_nil ?_
        rintro ⟨⟩
        exact absurd (.inl rfl) silent

theorem emits_noZero (reflects : Reflects s l) (valid : ∀ d ∈ ds, d.Valid)
    (run : emits text ds l = some (l', cs)) : 0 ∉ cs ↔ NoZeroChar ds l.arg := by
  induction ds generalizing s l l' cs with
  | nil =>
    obtain ⟨_, rfl⟩ := Prod.mk.inj (Option.some.inj run)
    exact iff_of_true List.not_mem_nil trivial
  | cons d ds ih =>
    obtain ⟨validD, validDs⟩ := List.forall_mem_cons.mp valid
    rw [emits] at run
    obtain ⟨⟨l₁, cs₁⟩, first, run⟩ := Option.bind_eq_some_iff.mp run
    obtain ⟨⟨l₂, cs₂⟩, second, eq⟩ := Option.map_eq_some_iff.mp run
    obtain ⟨_, rfl⟩ := Prod.mk.inj eq
    obtain ⟨fits, enough⟩ := emit_fits reflects first
    obtain ⟨_, _, first', reflects', rest, _⟩ := emit_some text reflects fits enough
    obtain ⟨rfl, rfl⟩ := Prod.mk.inj (Option.some.inj (first'.symm.trans first))
    rw [List.mem_append, not_or, emit_noZero reflects validD first, ih reflects' validDs second, rest]
    rfl

/-- The buffer holds the C string of what a stream shows. -/
def ProperString (text : Word → CString) (str : Word) (ds : List Directive) (arg : List Word)
    (mem : Mem) : Prop :=
  ∃ chars, shownBy text (ds.flatMap Directive.text) arg mem = some chars ∧
    ∃ o, vsprintf text str (ds.flatMap Directive.text) arg mem = some o ∧ IsCString o.mem str chars

/-- The buffer holds a string exactly when one that ends there stood in it already. -/
theorem proper_string_iff (valid : ∀ d ∈ ds, d.Valid) (buffer : str ≠ 0)
    (room : count text .start ds arg < 2 ^ 32) :
    ProperString text str ds arg mem ↔ Fits .start ds arg ∧ NoZeroChar ds arg ∧
      mem (str + BitVec.ofNat 32 (count text .start ds arg)) = 0 := by
  have behind {cs : List Byte} (length : cs.length = count text .start ds arg) :
      storeBytes mem str cs (str + BitVec.ofNat 32 cs.length) =
        mem (str + BitVec.ofNat 32 (count text .start ds arg)) := by
    rw [storeBytes_outside, length]
    rw [covers_add, length, BitVec.toNat_ofNat, Nat.mod_eq_of_lt room]
    exact Nat.lt_irrefl _
  constructor
  · rintro ⟨chars, shown, o, stored, string⟩
    rw [shownBy, vsprintf_stream valid] at shown
    obtain ⟨⟨l, cs⟩, run, rfl⟩ := Option.map_eq_some_iff.mp shown
    have fits : Fits .start ds arg := emits_fits reflects_start run
    obtain ⟨_, _, run', _, _, length⟩ := emits_some text reflects_start fits
    obtain ⟨rfl, rfl⟩ := Prod.mk.inj (Option.some.inj (run'.symm.trans run))
    rw [vsprintf_some valid run (.inr (length.trans_lt room).le)] at stored
    obtain rfl := Option.some.inj stored
    have zero := string.terminated
    rw [putText_mem buffer, behind length] at zero
    exact ⟨fits, (emits_noZero reflects_start valid run).mp string.noZero, zero⟩
  · rintro ⟨fits, noZero, zero⟩
    obtain ⟨l, cs, run, _, _, length⟩ := emits_some text reflects_start fits
    have small : cs.length < 2 ^ 32 := length.trans_lt room
    refine ⟨cs, ?_, _, vsprintf_some valid run (.inr small.le), ?_⟩
    · rw [shownBy, vsprintf_stream valid, run]
      rfl
    · constructor
      · rw [putText_mem buffer]
        exact loadBytes_storeBytes small.le
      · exact (emits_noZero reflects_start valid run).mpr noZero
      · rw [putText_mem buffer, behind length]
        exact zero

theorem proper_string_sample : ProperString noStrings 0x5000 sampleFormat [0xAB, 5] (fun _ => 0) ∧
    ¬ProperString noStrings 0x5000 sampleFormat [0xAB, 5] (fun _ => 0x41) := by
  have short : count noStrings .start sampleFormat [0xAB, 5] < 2 ^ 32 := by decide +kernel
  obtain ⟨⟨l, cs⟩, run⟩ : ∃ r, emits noStrings sampleFormat (.start [0xAB, 5]) = some r :=
    Option.isSome_iff_exists.mp (by decide +kernel)
  refine ⟨(proper_string_iff sampleFormat_valid (by decide) short).mpr ⟨?_, ?_, rfl⟩, fun proper => ?_⟩
  · exact emits_fits reflects_start run
  · refine ⟨(nomatch ·), (nomatch ·), fun same => ?_, trivial⟩
    exact absurd (Directive.plain.inj same) (by decide)
  · have zero := ((proper_string_iff sampleFormat_valid (by decide) short).mp proper).2.2
    exact absurd zero (by decide)

/-- One character into a buffer full of others. -/
theorem string_unterminated : ¬∀ (text : Word → CString) (str : Word) (ds : List Directive)
    (arg : List Word) (mem : Mem), (∀ d ∈ ds, d.Valid) → (∀ d ∈ ds, d.WidthFits) →
    (ds.map Directive.needs).sum ≤ arg.length → str ≠ 0 → ProperString text str ds arg mem := by
  intro claim
  have valid : ∀ d ∈ [Directive.literal (chr 'a')], d.Valid := by
    simp only [List.forall_mem_singleton, Directive.Valid]
    decide
  have widths : ∀ d ∈ [Directive.literal (chr 'a')], d.WidthFits := by
    simp only [List.forall_mem_singleton, Directive.WidthFits]
  obtain ⟨chars, shown, o, stored, string⟩ :=
    claim noStrings 0x5000 _ [] (fun _ => 0x41) valid widths le_rfl (by decide)
  obtain rfl : [chr 'a'] = chars := Option.some.inj shown
  obtain rfl := Option.some.inj stored
  exact absurd string.terminated (by decide)

end X86Os.Libc
