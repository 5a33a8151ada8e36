import X86Os.Lai.FieldBuffer

/-!
# Fields of operation regions

A field is a range of bits of a region that is accessed in words of 8 to 64
bits. `lai_read_field_internal` collects its bits from the words that it
touches; `lai_write_field_internal` replaces its bits in these words and lets
the update rule of the field decide about the others.
-/

namespace X86Os.Lai

open Library.Memory Library.BitBuffer
set_option autoImplicit false

/-- The `fld_…` members of a node of type field, and whether its region is in memory. Sizes come
from `lai_parse_varint`. -/
structure Field where
  fldFlags : Byte
  fldOffset : Word
  fldSize : ℕ
  inMemory : Bool
  varint : fldSize < 2 ^ 28

def Field.start (field : Field) : ℕ := field.fldOffset.toNat

/-- The case `FIELD_ANY_ACCESS`: the size rounded up to a power of two. -/
def anyAccess (field : Field) : ℕ :=
  let accessSize := if 1 < field.fldSize then 2 ^ (Nat.log2 (field.fldSize - 1) + 1) else 1
  let maxAccessWidth := if field.inMemory then 64 else 32
  max (min accessSize maxAccessWidth) 8

def laiCalculateAccessWidth (field : Field) : Except Stop ℕ :=
  match (field.fldFlags &&& 0xF).toNat with
  | 0 => .ok (anyAccess field)
  | 1 => .ok 8
  | 2 => .ok 16
  | 3 => .ok 32
  | 4 => .ok 64
  | _ => .error .ensure

/-- `lai_perform_read` and `lai_perform_write` of one region, by access size and byte offset. -/
structure RegionAccess (σ : Type) where
  performRead : σ → ℕ → ℕ → Except Stop Word
  performWrite : σ → ℕ → ℕ → Word → Except Stop σ

/-- `(UINT64_C(1) << access_bits) - 1`. The constant is an `unsigned long` of 32 bits, so a piece
of 32 bits has the mask zero. -/
def fieldMask (accessBits : ℕ) : Word := (1#32 <<< (accessBits % 32)) - 1#32

def firstOffset (field : Field) (accessSize : ℕ) : ℕ :=
  field.start / accessSize * accessSize / 8

variable {σ : Type}

/-- The loop of `lai_read_field_internal`; the access size is a power of two. -/
def readLoop (region : RegionAccess σ) (s : σ) (field : Field) (accessSize : ℕ) :
    ℕ → ℕ → ℕ → List Byte → Except Stop (List Byte)
  | 0, _, _, _ => .error .wild
  | turns + 1, progress, offset, destination =>
    if progress < field.fldSize then do
      let bitOffset := (field.start + progress) % accessSize
      let accessBits := min (field.fldSize - progress) (accessSize - bitOffset)
      let value ← region.performRead s accessSize offset
      let value := (value >>> (bitOffset % 32)) &&& fieldMask accessBits
      let destination ← laiBufferPutAt destination value progress accessBits
      readLoop region s field accessSize turns (progress + accessBits) (offset + accessSize / 8)
        destination
    else .ok destination

def laiReadFieldInternal (region : RegionAccess σ) (s : σ) (destination : List Byte)
    (field : Field) : Except Stop (List Byte) := do
  let accessSize ← laiCalculateAccessWidth field
  readLoop region s field accessSize (field.fldSize + 1) 0 (firstOffset field accessSize) destination

/-- What the update rule puts into a word before the bits of the field. -/
def wordBefore (region : RegionAccess σ) (s : σ) (field : Field) (accessSize offset : ℕ) :
    Except Stop Word :=
  match ((field.fldFlags >>> 5) &&& 0x0F).toNat with
  | 0 => region.performRead s accessSize offset
  | 1 => .ok (BitVec.allOnes 32)
  | 2 => .ok 0
  | _ => .error .ensure

def writeLoop (region : RegionAccess σ) (source : List Byte) (field : Field) (accessSize : ℕ) :
    ℕ → ℕ → ℕ → σ → Except Stop σ
  | 0, _, _, _ => .error .wild
  | turns + 1, progress, offset, s =>
    if progress < field.fldSize then do
      let bitOffset := (field.start + progress) % accessSize
      let accessBits := min (field.fldSize - progress) (accessSize - bitOffset)
      let mask := fieldMask accessBits <<< (bitOffset % 32)
      let value ← wordBefore region s field accessSize offset
      let newVal ← laiBufferGetAt source progress accessBits
      let value := (value &&& ~~~mask) ||| ((newVal <<< (bitOffset % 32)) &&& mask)
      let s ← region.performWrite s accessSize offset value
      writeLoop region source field accessSize turns (progress + accessBits)
        (offset + accessSize / 8) s
    else .ok s

def laiWriteFieldInternal (region : RegionAccess σ) (s : σ) (source : List Byte) (field : Field) :
    Except Stop σ := do
  let accessSize ← laiCalculateAccessWidth field
  writeLoop region source field accessSize (field.fldSize + 1) 0 (firstOffset field accessSize) s

/-- The result of `lai_read_field`, an integer where eight bytes suffice. -/
inductive FieldValue
  | integer (value : Word)
  | buffer (content : List Byte)

def ofFieldBytes (buf : List Byte) : Word :=
  (List.range buf.length).foldl
    (fun value i => value ||| (buf.getD i 0).setWidth 32 <<< (i * 8 % 32)) 0

def laiReadField (region : RegionAccess σ) (s : σ) (field : Field) : Except Stop FieldValue := do
  let bytes := (field.fldSize + 7) / 8
  let buf ← laiReadFieldInternal region s (List.replicate bytes 0) field
  if 8 < bytes then .ok (.buffer buf) else .ok (.integer (ofFieldBytes buf))

/-- The eight bytes that are made of an integer, which has four. -/
def toFieldBytes (value : Word) : List Byte :=
  (List.range 8).map fun i => ((value >>> (i * 8 % 32)) &&& 0xFF).setWidth 8

def laiWriteField (region : RegionAccess σ) (s : σ) (field : Field) :
    FieldValue → Except Stop σ
  | .integer value => laiWriteFieldInternal region s (toFieldBytes value) field
  | .buffer content => laiWriteFieldInternal region s content field

end X86Os.Lai
