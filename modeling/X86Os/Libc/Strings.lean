import Mathlib.Data.List.Infix
import X86Os.Library.Memory

/-!
# C strings and the comparisons of base/libc/strcmp.cpp

A string is the list of its bytes in front of the terminator. `strcmp` looks at
the characters of its second argument only, so it accepts every string that the
second argument is a prefix of, and `strncmp` is its negation.
-/

namespace X86Os.Libc

open Library.Memory
set_option autoImplicit false

structure CString where
  bytes : List Byte
  terminated : 0 ∉ bytes
  deriving DecidableEq

namespace CString

/-- `s[i]`; nothing is known behind the terminator. -/
def get (s : CString) (i : Nat) : Option Byte :=
  if i ≤ s.bytes.length then some (s.bytes[i]?.getD 0) else none

def drop (s : CString) (i : Nat) : Option CString :=
  if i ≤ s.bytes.length then
    some ⟨s.bytes.drop i, fun zero => s.terminated (List.mem_of_mem_drop zero)⟩
  else none

end CString

def strlen (s : CString) : Nat := s.bytes.length

def differ : List Byte → List Byte → Bool
  | _, [] => false
  | [], _ :: _ => true
  | d :: dst, c :: src => if c ≠ d then true else differ dst src

def strcmp (dst src : CString) : Bool := differ dst.bytes src.bytes

def strncmp (dst src : CString) : Bool := !strcmp dst src

theorem differ_eq_false {dst src : List Byte} : differ dst src = false ↔ src <+: dst := by
  induction src generalizing dst with
  | nil => simp [differ]
  | cons c src ih =>
    cases dst with
    | nil => simp [differ]
    | cons d dst =>
      rw [differ, List.cons_prefix_cons, ← ih]
      split
      next other => simp [other]
      next same => simp [not_not.mp same]

theorem strcmp_eq_false {dst src : CString} : strcmp dst src = false ↔ src.bytes <+: dst.bytes :=
  differ_eq_false

end X86Os.Libc
