import Mathlib.Data.List.Basic

/-!
# Layout of C records

Each field stands at the next multiple of its alignment, and the record ends at
the next multiple of the greatest alignment of its fields.
-/

namespace Library.Layout
set_option autoImplicit false

/-- The next multiple of `a` from `n` on. -/
def alignUp (n a : Nat) : Nat := (n + (a - 1)) / a * a

theorem alignUp_dvd (n a : Nat) : a ∣ alignUp n a := Nat.dvd_mul_left ..

/-- Size and alignment of a type; arrays have no gaps. -/
structure TypeLayout where
  size : Nat
  align : Nat
  positive : 0 < align
  whole : align ∣ size

/-- A type that is aligned to its own size. -/
def scalar (size : Nat) (positive : 0 < size) : TypeLayout := ⟨size, size, positive, Nat.dvd_refl size⟩

def array (n : Nat) (l : TypeLayout) : TypeLayout := ⟨n * l.size, l.align, l.positive, Nat.dvd_mul_left_of_dvd l.whole n⟩

variable {F : Type} {fields : List (F × TypeLayout)}

/-- Where the fields end. -/
def stop : Nat → List (F × TypeLayout) → Nat
  | n, [] => n
  | n, (_, l) :: rest => stop (alignUp n l.align + l.size) rest

def maxAlign : List (F × TypeLayout) → Nat
  | [] => 1
  | (_, l) :: rest => max l.align (maxAlign rest)

theorem maxAlign_pos : 0 < maxAlign fields := by
  induction fields with
  | nil => exact Nat.one_pos
  | cons field rest ih => exact Nat.lt_of_lt_of_le ih (Nat.le_max_right ..)

def record (fields : List (F × TypeLayout)) : TypeLayout :=
  ⟨alignUp (stop 0 fields) (maxAlign fields), maxAlign fields, maxAlign_pos, alignUp_dvd ..⟩

variable [DecidableEq F]

def offsetFrom : Nat → List (F × TypeLayout) → F → Option Nat
  | _, [], _ => none
  | n, (g, l) :: rest, f =>
    if g = f then some (alignUp n l.align) else offsetFrom (alignUp n l.align + l.size) rest f

def offsetOf (fields : List (F × TypeLayout)) (f : F) : Option Nat := offsetFrom 0 fields f

end Library.Layout
