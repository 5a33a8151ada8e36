import X86Os.Libc.Standing

/-!
# Where the formatter leaves its strings and buffers

A conversion is read without a look at the terminator, so a format that ends in
one is read behind its end. The width is collected without a look at the ten
places for it, and it decides how far the digits are moved up in `buf`. Every
other format keeps all accesses inside.
-/

namespace X86Os.Libc

open Library.Memory Library.Buffer
set_option autoImplicit false

/-- A read of the format or a write to one of the arrays of `vsprintf_helper`. -/
inductive Access
  | format (i : Nat)
  | width (i : Nat)
  | buf (i : Nat)

/-- Inside the arrays, and at most at the terminator of a format of this length. -/
def Access.Inside (length : Nat) : Access → Prop
  | format i => i ≤ length
  | width i => i < widthSize
  | buf i => i < bufSize

/-- The digits and the terminator; the reversal stays in front of them. -/
def itoaAccesses (n base : Word) : List Access :=
  (List.range ((itoaLoop base 32 (fun _ => 0) n 0).2 + 1)).map .buf

def padAccesses (c : Byte) (len size : Nat) : List Access :=
  if pads c ∧ len < size then
    ((List.range len).map fun i => .buf (size - 1 - i)) ++ (List.range (size - len)).map .buf
  else []

def numberAccesses (c : Byte) (l : Locals) : List Access :=
  match l.arg with
  | [] => []
  | ival :: _ =>
    itoaAccesses (uvalOf c ival) (sysOf c) ++
      match strlenIn bufSize (itoa l.buf (uvalOf c ival) (sysOf c)) with
      | none => []
      | some len => padAccesses c len (if l.sizeOverride then l.size else len)

/-- The loop over the width, from index `i` of the format and `k` of `width_str` on. The
terminator is no format letter, so the loop goes on behind it. -/
def widthAccesses (i k : Nat) : List Byte → List Access
  | [] => [.format i, .width k, .format (i + 1)]
  | c :: format =>
    if isFormatLetter c then [.format i, .width k]
    else .format i :: .width k :: widthAccesses (i + 1) (k + 1) format

/-- The switch behind a '%'. A terminator there is no conversion, and the outer loop goes on. -/
def directiveAccesses (i : Nat) (l : Locals) : List Byte → List Access
  | [] => [.format i, .format (i + 1)]
  | c :: format =>
    if c = chr '0' then
      .format i :: (widthAccesses (i + 1) 0 format ++ (readWidth format).elim [] fun r =>
        numberAccesses r.2.1 { l with sizeOverride := true, size := (atoi r.1).toNat })
    else if isNumber c then .format i :: numberAccesses c l
    else [.format i]

def directiveLength : List Byte → Nat
  | [] => 1
  | c :: format => if c = chr '0' then (readWidth format).elim 1 fun r => r.1.length + 2 else 1

/-- All accesses from index `i` of the format on, as far as `vsprintf_helper` gets. -/
def accesses (str : Word) (text : Word → CString) : Nat → Nat → List Byte → Printer → List Access
  | 0, _, _, _ => []
  | _ + 1, i, [], _ => [.format i]
  | fuel + 1, i, c :: format, p =>
    .format i ::
      if c = 0 then []
      else if c = chr '%' then
        directiveAccesses (i + 1) p.toLocals format ++ (directive str text p format).elim [] fun r =>
          accesses str text fuel (i + 1 + directiveLength format) r.2 r.1
      else accesses str text fuel (i + 1) format { p with output := putChar str c p.output }

structure FormatterStays (str : Word) (text : Word → CString) (format : CString) (arg : List Word)
    (mem : Mem) : Prop where
  returns : ∃ out, vsprintf text str format.bytes arg mem = some out
  inside : ∀ a ∈ accesses str text (format.bytes.length + 1) 0 format.bytes (.start mem arg),
    a.Inside format.bytes.length

/-- What remains of a format that ends in a conversion: a '%', or a width without a letter. -/
def Unfinished (rest : List Byte) : Prop :=
  rest = [chr '%'] ∨ ∃ width, rest = chr '%' :: chr '0' :: width ∧ ∀ x ∈ width, isFormatLetter x = false

variable {str : Word} {text : Word → CString} {format : CString} {arg : List Word} {mem : Mem}
variable {c : Byte} {ival : Word} {l : Locals} {p q : Printer} {bytes rest width : List Byte} {i k fuel length : Nat}
variable {d : Directive} {ds : List Directive} {a : Access}

theorem itoaLoop_count {n base : Word} {buf : Chars} (hb : 1 < base.toNat) :
    (itoaLoop base 32 buf n 0).2 = (numeral base n).length := by
  have enough : n.toNat < base.toNat ^ (31 + 1) := n.isLt.trans_le (Nat.pow_le_pow_left hb 32)
  have loop : itoaLoop base 32 buf n 0 = _ := itoaLoop_eq hb enough
  rw [loop, Nat.zero_add, numeral_length]

theorem itoa_inside (mem : a ∈ itoaAccesses (uvalOf c ival) (sysOf c)) : a.Inside length := by
  obtain ⟨j, inside, rfl⟩ := List.mem_map.mp mem
  have short : digitCount c ival ≤ 32 := digitCount_le
  have inside := List.mem_range.mp inside
  rw [itoaLoop_count (sysOf_bounds c).1, ← digitCount] at inside
  have size : bufSize = 512 := rfl
  change j < bufSize
  omega

theorem pad_inside {len size : Nat} {buf buf' : Chars} (run : padDigits c len size buf = some buf')
    (mem : a ∈ padAccesses c len size) : a.Inside length := by
  rw [padDigits] at run
  rw [padAccesses] at mem
  split at mem
  next pad =>
    rw [if_pos pad, Option.ite_none_right_eq_some] at run
    have size := run.1
    obtain moved | zeros := List.mem_append.mp mem
    · obtain ⟨j, _, rfl⟩ := List.mem_map.mp moved
      change _ < bufSize
      omega
    · obtain ⟨j, inside, rfl⟩ := List.mem_map.mp zeros
      have inside := List.mem_range.mp inside
      change _ < bufSize
      omega
  next => cases mem

theorem number_inside (run : number str c p = some q) (mem : a ∈ numberAccesses c p.toLocals) :
    a.Inside length := by
  obtain ⟨⟨buf, size, sizeOverride, arg⟩, output⟩ := p
  cases arg with
  | nil => cases run
  | cons ival arg =>
    rw [number] at run
    obtain ⟨r, run, _⟩ := Option.map_eq_some_iff.mp run
    simp only [digits, Option.bind_eq_bind, Option.bind_eq_some_iff] at run
    obtain ⟨len, stop, buf', padded, _⟩ := run
    simp only [numberAccesses, stop] at mem
    obtain digits | pad := List.mem_append.mp mem
    · exact itoa_inside digits
    · exact pad_inside padded pad

theorem readWidth_spec (run : readWidth bytes = some (width, c, rest)) :
    bytes = width ++ c :: rest ∧ (∀ x ∈ width, isFormatLetter x = false) ∧ isFormatLetter c = true := by
  induction bytes generalizing width with
  | nil => cases run
  | cons b bytes ih =>
    rw [readWidth] at run
    split at run
    next letter =>
      cases run
      exact ⟨rfl, by simp, letter⟩
    next other =>
      obtain ⟨⟨w, c', rest'⟩, found, same⟩ := Option.map_eq_some_iff.mp run
      cases same
      obtain ⟨split, noLetter, letter⟩ := ih found
      refine ⟨congrArg (b :: ·) split, ?_, letter⟩
      exact List.forall_mem_cons.mpr ⟨Bool.eq_false_iff.mpr other, noLetter⟩

theorem readWidth_none (run : readWidth bytes = none) : ∀ x ∈ bytes, isFormatLetter x = false := by
  induction bytes with
  | nil => simp
  | cons b bytes ih =>
    rw [readWidth] at run
    split at run
    next => cases run
    next other =>
      rw [Option.map_eq_none_iff] at run
      exact List.forall_mem_cons.mpr ⟨Bool.eq_false_iff.mpr other, ih run⟩

theorem width_inside (run : readWidth bytes = some (width, c, rest)) (short : k + width.length < widthSize)
    (place : i + bytes.length ≤ length) (mem : a ∈ widthAccesses i k bytes) : a.Inside length := by
  induction bytes generalizing width i k with
  | nil => cases run
  | cons b bytes ih =>
    rw [List.length_cons] at place
    have read : (Access.format i).Inside length := by
      change i ≤ length
      omega
    have write : (Access.width k).Inside length := by
      change k < widthSize
      omega
    rw [readWidth] at run
    rw [widthAccesses] at mem
    split at run
    next letter =>
      rw [if_pos letter] at mem
      simp only [List.mem_cons, List.not_mem_nil, or_false] at mem
      obtain rfl | rfl := mem
      · exact read
      · exact write
    next other =>
      obtain ⟨⟨w, c', rest'⟩, found, same⟩ := Option.map_eq_some_iff.mp run
      cases same
      rw [if_neg other] at mem
      simp only [List.mem_cons] at mem
      obtain rfl | rfl | behind := mem
      · exact read
      · exact write
      · simp only [List.length_cons] at short
        exact ih found (by omega) (by omega) behind

theorem directive_inside (run : directive str text p bytes = some (q, rest))
    (place : i + bytes.length ≤ length) (mem : a ∈ directiveAccesses i p.toLocals bytes) :
    a.Inside length := by
  cases bytes with
  | nil => cases run
  | cons c bytes =>
    rw [List.length_cons] at place
    have read : (Access.format i).Inside length := by
      change i ≤ length
      omega
    rw [directive] at run
    rw [directiveAccesses] at mem
    split at run
    next zero =>
      obtain ⟨⟨width, letter, rest'⟩, found, run⟩ := Option.bind_eq_some_iff.mp run
      obtain ⟨q', run, _⟩ := Option.map_eq_some_iff.mp run
      rw [padded, Option.ite_none_right_eq_some] at run
      obtain ⟨short, run⟩ := run
      rw [if_pos zero, found] at mem
      simp only [List.mem_cons, List.mem_append, Option.elim_some] at mem
      obtain rfl | inWidth | inNumber := mem
      · exact read
      · exact width_inside found (by rwa [Nat.zero_add]) (by omega) inWidth
      · exact number_inside run inNumber
    next noZero =>
      obtain ⟨q', run, _⟩ := Option.map_eq_some_iff.mp run
      rw [if_neg noZero] at mem
      split at mem
      next isNumber =>
        rw [conversion, if_pos isNumber] at run
        obtain rfl | inNumber := List.mem_cons.mp mem
        · exact read
        · exact number_inside run inNumber
      next =>
        obtain rfl := List.mem_singleton.mp mem
        exact read

theorem directive_length (run : directive str text p bytes = some (q, rest)) :
    directiveLength bytes + rest.length = bytes.length := by
  cases bytes with
  | nil => cases run
  | cons c bytes =>
    rw [directive] at run
    rw [directiveLength]
    split at run
    next zero =>
      obtain ⟨⟨width, letter, rest'⟩, found, run⟩ := Option.bind_eq_some_iff.mp run
      obtain ⟨q', _, same⟩ := Option.map_eq_some_iff.mp run
      cases same
      rw [if_pos zero, found, (readWidth_spec found).1]
      simp only [Option.elim_some, List.length_cons, List.length_append]
      omega
    next noZero =>
      obtain ⟨q', _, same⟩ := Option.map_eq_some_iff.mp run
      cases same
      rw [if_neg noZero, List.length_cons, Nat.add_comm]

theorem accesses_inside (run : vsprintfHelper str text fuel bytes p = some q)
    (place : i + bytes.length = length) (mem : a ∈ accesses str text fuel i bytes p) :
    a.Inside length := by
  induction fuel generalizing i bytes p with
  | zero => cases run
  | succ fuel ih =>
    have read : (Access.format i).Inside length := by
      change i ≤ length
      omega
    cases bytes with
    | nil =>
      obtain rfl := List.mem_singleton.mp mem
      exact read
    | cons c bytes =>
      rw [List.length_cons] at place
      rw [vsprintfHelper] at run
      obtain rfl | mem := List.mem_cons.mp mem
      · exact read
      split at run
      next null =>
        rw [if_pos null] at mem
        cases mem
      next notNull =>
        rw [if_neg notNull] at mem
        split at run
        next percent =>
          obtain ⟨⟨p', rest⟩, first, run⟩ := Option.bind_eq_some_iff.mp run
          rw [if_pos percent, first] at mem
          have taken := directive_length first
          obtain here | behind := List.mem_append.mp mem
          · exact directive_inside first (by omega) here
          · exact ih run (by dsimp only; omega) behind
        next other =>
          rw [if_neg other] at mem
          exact ih run (by omega) mem

/-- Every format is a list of directives, and what remains of a conversion that is not finished. -/
theorem format_split (bytes : List Byte) (noNull : 0 ∉ bytes) :
    ∃ (ds : List Directive) (rest : List Byte), bytes = ds.flatMap Directive.text ++ rest ∧ (∀ d ∈ ds, d.Valid) ∧
      (rest = [] ∨ Unfinished rest) := by
  induction size : bytes.length using Nat.strongRecOn generalizing bytes with
  | ind n ih =>
    -- a directive in front of a shorter format
    have step (d : Directive) (valid : d.Valid) (tail : List Byte) (split : bytes = d.text ++ tail) :
        ∃ (ds : List Directive) (rest : List Byte), bytes = ds.flatMap Directive.text ++ rest ∧
          (∀ d ∈ ds, d.Valid) ∧ (rest = [] ∨ Unfinished rest) := by
      have shorter : tail.length < n := by
        have positive := text_length_pos d
        rw [← size, split, List.length_append]
        omega
      have noNull' : 0 ∉ tail := fun null => noNull (split ▸ List.mem_append_right _ null)
      obtain ⟨ds, rest, same, valids, ends⟩ := ih tail.length shorter tail noNull' rfl
      refine ⟨d :: ds, rest, ?_, List.forall_mem_cons.mpr ⟨valid, valids⟩, ends⟩
      rw [split, same, List.flatMap_cons, List.append_assoc]
    match bytes with
    | [] => exact ⟨[], [], rfl, by simp, .inl rfl⟩
    | c :: tail =>
      by_cases percent : c = chr '%'
      · subst percent
        match tail with
        | [] => exact ⟨[], _, rfl, by simp, .inr (.inl rfl)⟩
        | c :: tail =>
          simp only [List.mem_cons, not_or] at noNull
          by_cases zero : c = chr '0'
          · subst zero
            cases found : readWidth tail with
            | none =>
              exact ⟨[], _, rfl, by simp, .inr (.inr ⟨tail, rfl, readWidth_none found⟩)⟩
            | some r =>
              obtain ⟨width, letter, rest⟩ := r
              obtain ⟨rfl, noLetter, isLetter⟩ := readWidth_spec found
              refine step (.padded width letter) ⟨fun x mem => ⟨?_, noLetter x mem⟩, isLetter⟩ rest ?_
              · rintro rfl
                exact noNull.2.2 (List.mem_append_left _ mem)
              · simp [Directive.text]
          · exact step (.plain c) ⟨fun null => noNull.2.1 null.symm, zero⟩ tail rfl
      · simp only [List.mem_cons, not_or] at noNull
        exact step (.literal c) ⟨fun null => noNull.1 null.symm, percent⟩ tail rfl

theorem vsprintfHelper_rest (valid : ∀ d ∈ ds, d.Valid) :
    vsprintfHelper str text (ds.length + fuel) (ds.flatMap Directive.text ++ rest) p =
      (ds.foldlM (Directive.perform str text) p).bind (vsprintfHelper str text fuel rest) := by
  induction ds generalizing p with
  | nil =>
    rw [List.length_nil, Nat.zero_add]
    rfl
  | cons d ds ih =>
    obtain ⟨validD, validDs⟩ := List.forall_mem_cons.mp valid
    rw [List.length_cons, Nat.add_right_comm, List.flatMap_cons, List.append_assoc,
      vsprintfHelper_directive validD, List.foldlM_cons, Option.bind_eq_bind, Option.bind_assoc]
    congr 1
    funext p
    exact ih validDs

/-- A conversion that is not finished is read behind the terminator. -/
theorem vsprintfHelper_unfinished (unfinished : Unfinished rest) :
    vsprintfHelper str text fuel rest p = none := by
  have percent : chr '%' ≠ 0 := by decide
  cases fuel with
  | zero => rfl
  | succ fuel =>
    obtain rfl | ⟨width, rfl, noLetter⟩ := unfinished
    · rw [vsprintfHelper, if_neg percent, if_pos rfl]
      rfl
    · have never : readWidth width = none := by
        by_contra found
        obtain ⟨⟨w, c, rest⟩, found⟩ := Option.ne_none_iff_exists'.mp found
        obtain ⟨rfl, _, letter⟩ := readWidth_spec found
        rw [noLetter c (by simp)] at letter
        cases letter
      rw [vsprintfHelper, if_neg percent, if_pos rfl, directive, if_pos rfl, never]
      rfl

theorem perform_returns {r : Locals × List Byte} {o : Output} (run : emits text ds l = some r) :
    ∃ q, ds.foldlM (Directive.perform str text) ⟨l, o⟩ = some q := by
  induction ds generalizing l o r with
  | nil => exact ⟨_, rfl⟩
  | cons d ds ih =>
    rw [emits] at run
    obtain ⟨s, first, run⟩ := Option.bind_eq_some_iff.mp run
    obtain ⟨_, rest, _⟩ := Option.map_eq_some_iff.mp run
    obtain ⟨q, performed⟩ := ih (o := putText str s.2 o) rest
    refine ⟨q, ?_⟩
    rw [List.foldlM_cons, perform_eq, first]
    exact performed

theorem vsprintf_returns_iff (split : bytes = ds.flatMap Directive.text ++ rest)
    (valid : ∀ d ∈ ds, d.Valid) (ends : rest = [] ∨ Unfinished rest) :
    (∃ out, vsprintf text str bytes arg mem = some out) ↔ rest = [] ∧ Fits .start ds arg := by
  have count := length_le_text ds
  obtain ⟨k, fuel⟩ : ∃ k, bytes.length + 1 = ds.length + (k + 1) := by
    refine ⟨bytes.length - ds.length, ?_⟩
    rw [split, List.length_append]
    omega
  rw [vsprintf, fuel, split, vsprintfHelper_rest valid]
  cases run : emits text ds (.start arg) with
  | none =>
    rw [Printer.start, perform_none run]
    refine iff_of_false (by simp) ?_
    rintro ⟨_, fits⟩
    obtain ⟨_, _, some, _⟩ := emits_some text reflects_start fits
    rw [run] at some
    cases some
  | some r =>
    obtain ⟨q, performed⟩ : ∃ q, ds.foldlM (Directive.perform str text) ⟨.start arg, ⟨mem, 0, []⟩⟩ = some q :=
      perform_returns run
    rw [Printer.start, performed, Option.bind_some]
    obtain rfl | unfinished := ends
    · exact iff_of_true ⟨_, rfl⟩ ⟨rfl, emits_fits reflects_start run⟩
    · rw [vsprintfHelper_unfinished unfinished]
      refine iff_of_false (by simp) ?_
      rintro ⟨rfl, _⟩
      obtain one | ⟨_, more, _⟩ := unfinished
      · cases one
      · cases more

/-- A format is a list of directives with some rest, and the formatter stays inside if and only
if there is no rest, every width fits, and no argument is missing. -/
theorem formatter_stays_iff (format : CString) :
    ∃ (ds : List Directive) (rest : List Byte), format.bytes = ds.flatMap Directive.text ++ rest ∧ (∀ d ∈ ds, d.Valid) ∧
      (rest = [] ∨ Unfinished rest) ∧
      ∀ str text arg mem,
        FormatterStays str text format arg mem ↔ rest = [] ∧ Fits .start ds arg := by
  obtain ⟨ds, rest, split, valid, ends⟩ := format_split format.bytes format.terminated
  refine ⟨ds, rest, split, valid, ends, fun str text arg mem => ?_⟩
  have returns : (∃ out, vsprintf text str format.bytes arg mem = some out) ↔ rest = [] ∧ Fits .start ds arg :=
    vsprintf_returns_iff split valid ends
  constructor
  · intro stays
    exact returns.mp stays.returns
  · intro condition
    have returned := returns.mpr condition
    refine ⟨returned, ?_⟩
    obtain ⟨out, run⟩ := returned
    obtain ⟨q, helper, _⟩ := Option.map_eq_some_iff.mp run
    intro a mem
    exact accesses_inside helper (Nat.zero_add _) mem

def percentOnly : CString := ⟨[chr '%'], by decide⟩

/-- The character behind the terminator of "%" is read. -/
theorem formatter_leaves : ¬∃ str text arg mem, FormatterStays str text percentOnly arg mem := by
  rintro ⟨str, text, arg, mem, stays⟩
  have list : accesses str text 2 0 [chr '%'] (.start mem arg) = [.format 0, .format 1, .format 2] := rfl
  have inside : 2 ≤ 1 := stays.inside (.format 2) (list ▸ by simp)
  exact absurd inside (by decide)

end X86Os.Libc
