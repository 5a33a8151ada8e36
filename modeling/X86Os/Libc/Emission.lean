import X86Os.Libc.Printf

/-!
# The characters that a format emits

What a directive emits depends on the locals of `vsprintf_helper` and on the
arguments, not on where the characters go. A buffer receives them from its start
on, a stream one by one.
-/

namespace X86Os.Libc

open Library.Memory Library.Buffer
set_option autoImplicit false

def signOf (c : Byte) (ival : Word) : List Byte := if isNegative c ival then [chr '-'] else []

def numberText (c : Byte) (l : Locals) : Option (Locals × List Byte) :=
  match l.arg with
  | [] => none
  | ival :: arg => (digits c ival l).map fun (buf, size, n) =>
    ({ l with buf, size, arg }, signOf c ival ++ (List.range n).map buf)

def Directive.emit (text : Word → CString) (l : Locals) : Directive → Option (Locals × List Byte)
  | literal c => some (l, [c])
  | plain c =>
    if isNumber c then numberText c l
    else if c = chr 'c' then
      match l.arg with
      | [] => none
      | v :: arg => some ({ l with arg }, [v.setWidth 8])
    else if c = chr 's' then
      match l.arg with
      | [] => none
      | v :: arg => some ({ l with arg }, (text v).bytes)
    else some (l, [])
  | padded width c =>
    if width.length < widthSize then
      numberText c { l with sizeOverride := true, size := (atoi width).toNat }
    else none

def emits (text : Word → CString) : List Directive → Locals → Option (Locals × List Byte)
  | [], l => some (l, [])
  | d :: ds, l => (d.emit text l).bind fun r => (emits text ds r.1).map fun s => (s.1, r.2 ++ s.2)

variable {str : Word} {text : Word → CString} {c : Byte} {d : Directive} {ds ds' : List Directive}
variable {l : Locals} {o : Output} {r : Locals × List Byte} {mem : Mem} {arg : List Word}
variable {cs cs' : List Byte}

theorem putChar_eq : putChar str c o = putText str [c] o := by
  rw [putChar, putText]
  rfl

theorem putText_nil : putText str [] o = o := by
  rw [putText]
  split
  · have mem : storeBytes o.mem (str + o.pos) [] = o.mem := rfl
    have pos : o.pos + BitVec.ofNat 32 ([] : List Byte).length = o.pos := add_zero _
    rw [mem, pos]
  · rw [List.append_nil]

theorem putText_append (fits : str = 0 ∨ cs.length + cs'.length ≤ 2 ^ 32) :
    putText str cs' (putText str cs o) = putText str (cs ++ cs') o := by
  simp only [putText]
  split
  next buffer =>
    have small := fits.resolve_left buffer
    have place : str + (o.pos + BitVec.ofNat 32 cs.length) =
        str + o.pos + BitVec.ofNat 32 cs.length := by ring
    simp only [place, storeBytes_append small]
    rw [List.length_append, BitVec.ofNat_add, add_assoc]
  next => simp only [List.append_assoc]

theorem digits_length {ival : Word} {buf : Chars} {size n : Nat}
    (run : digits c ival l = some (buf, size, n)) : n < bufSize := by
  simp only [digits, Option.bind_eq_bind, Option.bind_eq_some_iff] at run
  obtain ⟨len, _, buf', _, n', stop, last⟩ := run
  cases last
  exact (firstIndex_eq_some.mp stop).1

theorem sign_eq {ival : Word} :
    (if isNegative c ival then putChar str (chr '-') o else o) = putText str (signOf c ival) o := by
  rw [signOf]
  split
  · exact putChar_eq
  · exact putText_nil.symm

theorem signOf_length {ival : Word} : (signOf c ival).length ≤ 1 := by
  rw [signOf]
  split
  · exact le_rfl
  · exact Nat.zero_le 1

theorem number_eq {p : Printer} : number str c p =
    (numberText c p.toLocals).map fun r => ⟨r.1, putText str r.2 p.output⟩ := by
  obtain ⟨⟨buf, size, sizeOverride, arg⟩, output⟩ := p
  cases arg with
  | nil => rfl
  | cons ival arg =>
    simp only [number, numberText]
    cases run : digits c ival ⟨buf, size, sizeOverride, ival :: arg⟩ with
    | none => rfl
    | some r =>
      obtain ⟨buf', size', n⟩ := r
      have short := digits_length run
      have fits : (signOf c ival).length + ((List.range n).map buf').length ≤ 2 ^ 32 := by
        have sign : (signOf c ival).length ≤ 1 := signOf_length
        rw [List.length_map, List.length_range]
        rw [bufSize] at short
        omega
      simp only [Option.map_some, sign_eq, putText_append (.inr fits)]

theorem padded_eq {width : List Byte} {p : Printer} : padded str width c p =
    ((Directive.padded width c).emit text p.toLocals).map fun r =>
      ⟨r.1, putText str r.2 p.output⟩ := by
  rw [padded, Directive.emit]
  split
  · exact number_eq
  · rfl

theorem perform_eq {p : Printer} : d.perform str text p =
    (d.emit text p.toLocals).map fun r => ⟨r.1, putText str r.2 p.output⟩ := by
  cases d with
  | literal c =>
    rw [Directive.perform, Directive.emit, putChar_eq]
    rfl
  | plain c =>
    obtain ⟨⟨buf, size, sizeOverride, arg⟩, output⟩ := p
    rw [Directive.perform, Directive.emit, conversion]
    split
    next => exact number_eq
    next =>
      split
      next =>
        cases arg with
        | nil => rfl
        | cons v arg => exact congrArg some (congrArg (Printer.mk _) putChar_eq)
      next =>
        split
        next => cases arg <;> rfl
        next => rw [Option.map_some, putText_nil]
  | padded width c => exact padded_eq

theorem perform_none (run : emits text ds l = none) :
    ds.foldlM (Directive.perform str text) ⟨l, o⟩ = none := by
  induction ds generalizing l o with
  | nil => cases run
  | cons d ds ih =>
    rw [emits] at run
    rw [List.foldlM_cons, perform_eq]
    cases first : d.emit text l with
    | none => rfl
    | some r =>
      rw [first, Option.bind_some, Option.map_eq_none_iff] at run
      exact ih run

theorem perform_some (run : emits text ds l = some r) (fits : str = 0 ∨ r.2.length ≤ 2 ^ 32) :
    ds.foldlM (Directive.perform str text) ⟨l, o⟩ = some ⟨r.1, putText str r.2 o⟩ := by
  induction ds generalizing l o r with
  | nil =>
    obtain rfl := Option.some.inj run
    rw [putText_nil]
    rfl
  | cons d ds ih =>
    rw [emits] at run
    obtain ⟨q, first, run⟩ := Option.bind_eq_some_iff.mp run
    obtain ⟨s, rest, rfl⟩ := Option.map_eq_some_iff.mp run
    have both : str = 0 ∨ q.2.length + s.2.length ≤ 2 ^ 32 := by
      rwa [List.length_append] at fits
    have last := ih (o := putText str q.2 o) rest (both.imp_right fun le => by omega)
    rw [putText_append both] at last
    rw [List.foldlM_cons, perform_eq, first]
    exact last

theorem vsprintf_none (valid : ∀ d ∈ ds, d.Valid) (run : emits text ds (.start arg) = none) :
    vsprintf text str (ds.flatMap Directive.text) arg mem = none := by
  rw [vsprintf_directives valid, Printer.start, perform_none run]
  rfl

theorem vsprintf_some (valid : ∀ d ∈ ds, d.Valid) (run : emits text ds (.start arg) = some r)
    (fits : str = 0 ∨ r.2.length ≤ 2 ^ 32) :
    vsprintf text str (ds.flatMap Directive.text) arg mem = some (putText str r.2 ⟨mem, 0, []⟩) := by
  rw [vsprintf_directives valid, Printer.start, perform_some run fits]
  rfl

/-- What a stream shows is what the directives emit. -/
theorem vsprintf_stream (valid : ∀ d ∈ ds, d.Valid) :
    (vsprintf text 0 (ds.flatMap Directive.text) arg mem).map Output.shown =
      (emits text ds (.start arg)).map Prod.snd := by
  cases run : emits text ds (.start arg) with
  | none => rw [vsprintf_none valid run]; rfl
  | some r => rw [vsprintf_some valid run (.inl rfl)]; rfl

end X86Os.Libc
