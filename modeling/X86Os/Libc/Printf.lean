import X86Os.Libc.Numbers
import X86Os.Libc.Strings

/-!
# The formatter of base/libc/printf.cpp

`vsprintf_helper` writes to a buffer when `str` is not NULL and calls `putchar`
otherwise. The arguments are 32-bit words; what a word points to as a string is
given by a function. `none` stands for the accesses that leave an array or the
format, and for an argument that is not there.

A format that ends in no conversion is a list of directives, and the loop over
it performs one directive after the other.
-/

namespace X86Os.Libc

open Library.Memory Library.Buffer
set_option autoImplicit false

/-- The memory with the position in it, and the characters that `putchar` was called with. -/
structure Output where
  mem : Mem
  pos : Word
  shown : List Byte

/-- The locals of `vsprintf_helper` that outlive an iteration. -/
structure Locals where
  buf : Chars
  size : Nat
  sizeOverride : Bool
  arg : List Word

structure Printer extends Locals where
  output : Output

def isFormatLetter (c : Byte) : Bool :=
  c == chr 'c' || c == chr 'd' || c == chr 'i' || c == chr 'e' || c == chr 'E' || c == chr 'f' ||
    c == chr 'g' || c == chr 'G' || c == chr 'o' || c == chr 's' || c == chr 'u' || c == chr 'x' ||
    c == chr 'X' || c == chr 'p' || c == chr 'n'

def putChar (str : Word) (c : Byte) (o : Output) : Output :=
  if str ≠ 0 then { o with mem := store8 o.mem (str + o.pos) c, pos := o.pos + 1 }
  else { o with shown := o.shown ++ [c] }

/-- `strcpy` and `strlen` on a buffer, a loop over `putchar` on a stream. `strcpy` of this
kernel copies no terminator. -/
def putText (str : Word) (cs : List Byte) (o : Output) : Output :=
  if str ≠ 0 then
    { o with mem := storeBytes o.mem (str + o.pos) cs, pos := o.pos + BitVec.ofNat 32 cs.length }
  else { o with shown := o.shown ++ cs }

def bufSize : Nat := 512
def widthSize : Nat := 10

def isNumber (c : Byte) : Bool := c == chr 'd' || c == chr 'u' || c == chr 'x' || c == chr 'p'

def sysOf (c : Byte) : Word := if c = chr 'd' ∨ c = chr 'u' then 10 else 16

def pads (c : Byte) : Bool := c == chr 'x' || c == chr 'p' || c == chr 'd'

def isNegative (c : Byte) (ival : Word) : Bool := c == chr 'd' && ival.slt 0

def uvalOf (c : Byte) (ival : Word) : Word := if isNegative c ival then -ival else ival

def padDigits (c : Byte) (len size : Nat) (buf : Chars) : Option Chars :=
  if pads c ∧ len < size then
    if size ≤ bufSize then some (fillFront (size - len) (chr '0') (moveUp len size buf)) else none
  else some buf

/-- The digits as they stand in `buf` before they are printed, with `size` and their number. -/
def digits (c : Byte) (ival : Word) (l : Locals) : Option (Chars × Nat × Nat) := do
  let buf := itoa l.buf (uvalOf c ival) (sysOf c)
  let len ← strlenIn bufSize buf
  let size := if l.sizeOverride then l.size else len
  let buf ← padDigits c len size buf
  let n ← strlenIn bufSize buf
  return (buf, size, n)

/-- The cases 'd', 'u', 'x' and 'p', which every letter behind a width falls into. -/
def number (str : Word) (c : Byte) (p : Printer) : Option Printer :=
  match p.arg with
  | [] => none
  | ival :: arg => (digits c ival p.toLocals).map fun (buf, size, n) =>
    let output := if isNegative c ival then putChar str (chr '-') p.output else p.output
    { p with buf, size, arg, output := putText str ((List.range n).map buf) output }

def conversion (str : Word) (text : Word → CString) (c : Byte) (p : Printer) : Option Printer :=
  if isNumber c then number str c p
  else if c = chr 'c' then
    match p.arg with
    | [] => none
    | v :: arg => some { p with arg, output := putChar str (v.setWidth 8) p.output }
  else if c = chr 's' then
    match p.arg with
    | [] => none
    | v :: arg => some { p with arg, output := putText str (text v).bytes p.output }
  else some p

def padded (str : Word) (width : List Byte) (c : Byte) (p : Printer) : Option Printer :=
  if width.length < widthSize then
    number str c { p with sizeOverride := true, size := (atoi width).toNat }
  else none

/-- The loop up to the next format letter: the width, the letter and the rest. -/
def readWidth : List Byte → Option (List Byte × Byte × List Byte)
  | [] => none
  | c :: format =>
    if isFormatLetter c then some ([], c, format)
    else (readWidth format).map fun r => (c :: r.1, r.2)

/-- The switch behind a '%', with the format that it leaves. -/
def directive (str : Word) (text : Word → CString) (p : Printer) :
    List Byte → Option (Printer × List Byte)
  | [] => none
  | c :: format =>
    if c = chr '0' then
      (readWidth format).bind fun r => (padded str r.1 r.2.1 p).map fun p => (p, r.2.2)
    else (conversion str text c p).map fun p => (p, format)

def vsprintfHelper (str : Word) (text : Word → CString) :
    Nat → List Byte → Printer → Option Printer
  | 0, _, _ => none
  | _ + 1, [], p => some p
  | fuel + 1, c :: format, p =>
    if c = 0 then some p
    else if c = chr '%' then
      (directive str text p format).bind fun r => vsprintfHelper str text fuel r.2 r.1
    else vsprintfHelper str text fuel format { p with output := putChar str c p.output }

def Locals.start (arg : List Word) : Locals := ⟨fun _ => 0, 8, false, arg⟩

def Printer.start (mem : Mem) (arg : List Word) : Printer := ⟨.start arg, ⟨mem, 0, []⟩⟩

/-- Every iteration takes a character off the format, so its length is fuel enough. -/
def vsprintf (text : Word → CString) (str : Word) (format : List Byte) (arg : List Word) (mem : Mem) :
    Option Output :=
  (vsprintfHelper str text (format.length + 1) format (.start mem arg)).map Printer.output

/-! ## Directives -/

inductive Directive
  | literal (c : Byte)
  | plain (c : Byte)
  | padded (width : List Byte) (c : Byte)

namespace Directive

def text : Directive → List Byte
  | literal c => [c]
  | plain c => [chr '%', c]
  | padded width c => chr '%' :: chr '0' :: (width ++ [c])

/-- The directives that the loop reads off their texts. -/
def Valid : Directive → Prop
  | literal c => c ≠ 0 ∧ c ≠ chr '%'
  | plain c => c ≠ 0 ∧ c ≠ chr '0'
  | padded width c => (∀ x ∈ width, x ≠ 0 ∧ isFormatLetter x = false) ∧ isFormatLetter c = true

def perform (str : Word) (text : Word → CString) (p : Printer) : Directive → Option Printer
  | literal c => some { p with output := putChar str c p.output }
  | plain c => conversion str text c p
  | padded width c => Libc.padded str width c p

end Directive

variable {str : Word} {text : Word → CString} {fuel : Nat} {c : Byte} {width format : List Byte}
variable {d : Directive} {ds ds' : List Directive} {p : Printer}

theorem readWidth_append (noLetter : ∀ x ∈ width, x ≠ 0 ∧ isFormatLetter x = false)
    (letter : isFormatLetter c = true) :
    readWidth (width ++ c :: format) = some (width, c, format) := by
  induction width with
  | nil => rw [List.nil_append, readWidth, if_pos letter]
  | cons x width ih =>
    obtain ⟨⟨_, other⟩, rest⟩ := List.forall_mem_cons.mp noLetter
    rw [List.cons_append, readWidth, other, if_neg Bool.false_ne_true, ih rest]
    rfl

theorem vsprintfHelper_directive (valid : d.Valid) :
    vsprintfHelper str text (fuel + 1) (d.text ++ format) p =
      (d.perform str text p).bind (vsprintfHelper str text fuel format) := by
  have percent : chr '%' ≠ 0 := by decide
  cases d with
  | literal c =>
    rw [Directive.text, List.singleton_append, vsprintfHelper, if_neg valid.1, if_neg valid.2]
    rfl
  | plain c =>
    rw [Directive.text, List.cons_append, List.singleton_append, vsprintfHelper, if_neg percent,
      if_pos rfl, directive, if_neg valid.2, Option.bind_map]
    rfl
  | padded width c =>
    rw [Directive.text, List.cons_append, List.cons_append, List.append_assoc, List.singleton_append,
      vsprintfHelper, if_neg percent, if_pos rfl, directive, if_pos rfl,
      readWidth_append valid.1 valid.2, Option.bind_some, Option.bind_map]
    rfl

theorem vsprintfHelper_directives (valid : ∀ d ∈ ds, d.Valid) (enough : ds.length < fuel) :
    vsprintfHelper str text fuel (ds.flatMap Directive.text) p =
      ds.foldlM (Directive.perform str text) p := by
  induction ds generalizing fuel p with
  | nil =>
    obtain ⟨fuel, rfl⟩ := Nat.exists_eq_succ_of_ne_zero (Nat.ne_of_gt enough)
    rfl
  | cons d ds ih =>
    obtain ⟨fuel, rfl⟩ := Nat.exists_eq_succ_of_ne_zero (Nat.ne_of_gt (Nat.zero_lt_of_lt enough))
    obtain ⟨validD, validDs⟩ := List.forall_mem_cons.mp valid
    rw [List.flatMap_cons, vsprintfHelper_directive validD, List.foldlM_cons]
    congr 1
    funext p
    exact ih validDs (Nat.lt_of_succ_lt_succ enough)

theorem text_length_pos (d : Directive) : 0 < d.text.length := by
  cases d <;> exact Nat.succ_pos _

theorem length_le_text (ds : List Directive) : ds.length ≤ (ds.flatMap Directive.text).length := by
  induction ds with
  | nil => exact le_rfl
  | cons d ds ih =>
    rw [List.flatMap_cons, List.length_append, List.length_cons]
    have := text_length_pos d
    omega

/-- `vsprintf` performs the directives of its format in turn. -/
theorem vsprintf_directives {arg : List Word} {mem : Mem} (valid : ∀ d ∈ ds, d.Valid) :
    vsprintf text str (ds.flatMap Directive.text) arg mem =
      (ds.foldlM (Directive.perform str text) (.start mem arg)).map Printer.output := by
  rw [vsprintf, vsprintfHelper_directives valid (Nat.lt_succ_of_le (length_le_text ds))]

end X86Os.Libc
