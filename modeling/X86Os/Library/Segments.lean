import Mathlib.Tactic.Ring

/-!
# Segments and gates

A descriptor has eight bytes, read here as one little-endian number. A segment
descriptor spreads its base over three fields and its limit over two; with the
granularity bit the limit counts pages. An interrupt gate names an offset and
the selector of the code segment that it leads to.
-/

namespace Library.Segments
set_option autoImplicit false

def segmentBase (d : ℕ) : ℕ := d / 2 ^ 16 % 2 ^ 24 + d / 2 ^ 56 % 2 ^ 8 * 2 ^ 24

def segmentLimit (d : ℕ) : ℕ :=
  let limit := d % 2 ^ 16 + d / 2 ^ 48 % 2 ^ 4 * 2 ^ 16
  if d / 2 ^ 55 % 2 = 1 then limit * 4096 + 4095 else limit

/-- The access byte of a segment, and the type and attributes of a gate. -/
def attributes (d : ℕ) : ℕ := d / 2 ^ 40 % 2 ^ 8

def present (d : ℕ) : Prop := attributes d / 2 ^ 7 = 1

def isCode (d : ℕ) : Prop := attributes d / 2 ^ 3 % 4 = 3

def isInterruptGate (d : ℕ) : Prop := attributes d % 2 ^ 5 = 14

def gateOffset (d : ℕ) : ℕ := d % 2 ^ 16 + d / 2 ^ 48 % 2 ^ 16 * 2 ^ 16

def gateSelector (d : ℕ) : ℕ := d / 2 ^ 16 % 2 ^ 16

instance (d : ℕ) : Decidable (present d) := inferInstanceAs (Decidable (_ = _))

instance (d : ℕ) : Decidable (isCode d) := inferInstanceAs (Decidable (_ = _))

instance (d : ℕ) : Decidable (isInterruptGate d) := inferInstanceAs (Decidable (_ = _))

/-- The linear address at which an interrupt goes on, unless it faults on the way. -/
def gateTarget (gdt idt : List ℕ) (vector : ℕ) : Option ℕ :=
  idt[vector]?.bind fun gate =>
    if present gate ∧ isInterruptGate gate then
      gdt[gateSelector gate / 8]?.bind fun segment =>
        if present segment ∧ isCode segment ∧ gateOffset gate ≤ segmentLimit segment then
          some ((segmentBase segment + gateOffset gate) % 2 ^ 32)
        else none
    else none

/-! ### Descriptors by their fields -/

variable {d l b₀ b₁ a g b₂ : ℕ}

/-- The descriptor is put together from two words, three bytes and a last one. -/
structure Fields (d l b₀ b₁ a g b₂ : ℕ) : Prop where
  whole : d = l + b₀ * 2 ^ 16 + b₁ * 2 ^ 32 + a * 2 ^ 40 + g * 2 ^ 48 + b₂ * 2 ^ 56
  bounds : l < 2 ^ 16 ∧ b₀ < 2 ^ 16 ∧ b₁ < 2 ^ 8 ∧ a < 2 ^ 8 ∧ g < 2 ^ 8 ∧ b₂ < 2 ^ 8

namespace Fields

theorem low (f : Fields d l b₀ b₁ a g b₂) : d % 2 ^ 16 = l := by
  obtain ⟨rfl, _⟩ := f
  omega

theorem top (f : Fields d l b₀ b₁ a g b₂) : d / 2 ^ 48 = g + b₂ * 2 ^ 8 := by
  obtain ⟨rfl, _⟩ := f
  omega

theorem attributes_eq (f : Fields d l b₀ b₁ a g b₂) : attributes d = a := by
  obtain ⟨rfl, _⟩ := f
  rw [attributes]
  omega

theorem segmentBase_eq (f : Fields d l b₀ b₁ a g b₂) :
    segmentBase d = b₀ + b₁ * 2 ^ 16 + b₂ * 2 ^ 24 := by
  obtain ⟨rfl, _⟩ := f
  rw [segmentBase]
  omega

theorem segmentLimit_eq (f : Fields d l b₀ b₁ a g b₂) : segmentLimit d =
    if g / 2 ^ 7 = 1 then (l + g % 2 ^ 4 * 2 ^ 16) * 4096 + 4095 else l + g % 2 ^ 4 * 2 ^ 16 := by
  have pages : d / 2 ^ 55 = d / 2 ^ 48 / 2 ^ 7 := by omega
  have bounds := f.bounds
  have nibble : (g + b₂ * 2 ^ 8) % 2 ^ 4 = g % 2 ^ 4 := by omega
  have bit : (g + b₂ * 2 ^ 8) / 2 ^ 7 % 2 = g / 2 ^ 7 := by omega
  rw [segmentLimit, pages, f.top, f.low, nibble, bit]

theorem gateSelector_eq (f : Fields d l b₀ b₁ a g b₂) : gateSelector d = b₀ := by
  obtain ⟨rfl, _⟩ := f
  rw [gateSelector]
  omega

theorem gateOffset_eq (f : Fields d l b₀ b₁ a g b₂) :
    gateOffset d = l + (g + b₂ * 2 ^ 8) * 2 ^ 16 := by
  have bounds := f.bounds
  have word : (g + b₂ * 2 ^ 8) % 2 ^ 16 = g + b₂ * 2 ^ 8 := by omega
  rw [gateOffset, f.low, f.top, word]

end Fields

/-! ### Interrupts -/

variable {gdt idt : List ℕ} {vector gate segment : ℕ}

theorem not_present_zero : ¬present 0 := by
  rw [present, attributes]
  omega

theorem gateTarget_absent (found : idt[vector]? = some gate) (absent : ¬present gate) :
    gateTarget gdt idt vector = none := by
  rw [gateTarget, found, Option.bind_some, if_neg fun both => absent both.1]

/-- A gate to a flat code segment leads to its own offset. -/
theorem gateTarget_flat (found : idt[vector]? = some gate) (open_ : present gate)
    (kind : isInterruptGate gate) (code : gdt[gateSelector gate / 8]? = some segment)
    (usable : present segment ∧ isCode segment) (base : segmentBase segment = 0)
    (limit : segmentLimit segment = 2 ^ 32 - 1) :
    gateTarget gdt idt vector = some (gateOffset gate) := by
  have inside : gateOffset gate < 2 ^ 32 := by
    rw [gateOffset]
    omega
  rw [gateTarget, found, Option.bind_some, if_pos ⟨open_, kind⟩, code, Option.bind_some,
    if_pos ⟨usable.1, usable.2, by omega⟩, base, Nat.zero_add, Nat.mod_eq_of_lt inside]

end Library.Segments
