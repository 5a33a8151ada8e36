import X86Os.Lai.Bytecode
import X86Os.Lai.Host

/-!
# Resource templates

A device describes its resources in a buffer of descriptors: small ones, whose
lead byte holds the type and the size of the payload, and large ones with a size
of two bytes. lai/helpers/resource.c reads such a buffer in two ways, with a view
that goes from one descriptor to the next and with the older
`lai_read_resource`, which collects all interrupts at once.
-/

namespace X86Os.Lai

open Library.Memory
set_option autoImplicit false

inductive ResourceTag
  | smallIrq | smallDma | smallIo | smallFixedIo | smallFixedDma | smallVendor | smallEnd
  | largeMem24 | largeRegister | largeMem32 | largeFixedMem32 | largeIrq
  | unknown
  deriving DecidableEq, Repr

def resourceTags : List (Byte × ResourceTag) :=
  [(0x04, .smallIrq), (0x05, .smallDma), (0x08, .smallIo), (0x09, .smallFixedIo),
    (0x0A, .smallFixedDma), (0x0E, .smallVendor), (0x0F, .smallEnd), (0x81, .largeMem24),
    (0x82, .largeRegister), (0x85, .largeMem32), (0x86, .largeFixedMem32), (0x89, .largeIrq)]

def resourceTag (type : Byte) : ResourceTag := (resourceTags.lookup type).getD .unknown

def acpiSmallIrqEdgeTriggered : Byte := 0x01

def acpiSmallIrqActiveLow : Byte := 0x08

def acpiExtendedIrqEdgeTriggered : Byte := 0x02

def acpiExtendedIrqActiveLow : Byte := 0x04

structure HeaderInfo where
  type : Byte
  size : ℕ
  skipSize : ℕ
  deriving DecidableEq, Repr

def laiGetHeaderInfo (data : List Byte) (entry : ℕ) : Except Stop HeaderInfo := do
  let lead ← readAt data entry
  if lead &&& 0x80 = 0 then
    let size := (lead &&& 7).toNat
    .ok ⟨lead >>> 3 &&& 0xF, size, size + 1⟩
  else
    let size ← wordAt data (entry + 1) 2
    .ok ⟨lead, size, size + 3⟩

/-- `struct lai_resource_view`, with an offset into the buffer for the entry. `uint64_t` has four
bytes. -/
structure ResourceView where
  entry : ℕ
  skipSize : ℕ
  entryIdx : ℕ
  base : Word
  length : Word
  alignment : Word
  flags : Byte
  gsi : Word
  deriving DecidableEq, Repr

def ResourceView.initial : ResourceView := ⟨0, 0, 0, 0, 0, 0, 0, 0⟩

/-- What the functions of the view return besides `LAI_ERROR_NONE`. -/
inductive ResourceError
  | none
  | endReached
  | unexpectedResult
  | illegalArguments
  deriving DecidableEq, Repr

def laiResourceIterate (data : List Byte) (iterator : ResourceView) :
    Except Stop (ResourceError × ResourceView) := do
  let entry := iterator.entry + iterator.skipSize
  let info ← laiGetHeaderInfo data entry
  let moved := { iterator with entry := entry }
  let view := { moved with skipSize := info.skipSize }
  match resourceTag info.type with
  | .smallFixedIo =>
    let low ← readAt data (entry + 1)
    let high ← readAt data (entry + 2)
    let length ← readAt data (entry + 3)
    .ok (.none, { view with
      base := BitVec.ofNat 32 (low.toNat ||| (high.toNat &&& 3) <<< 8)
      length := BitVec.ofNat 32 length.toNat })
  | .smallIo =>
    let flags ← readAt data (entry + 1)
    let base ← wordAt data (entry + 2) 2
    let alignment ← readAt data (entry + 6)
    let length ← readAt data (entry + 7)
    .ok (.none, { view with
      flags := flags
      base := BitVec.ofNat 32 base
      alignment := BitVec.ofNat 32 alignment.toNat
      length := BitVec.ofNat 32 length.toNat })
  | .smallIrq =>
    if info.size = 2 then
      .ok (.none, { view with entryIdx := 0, flags := acpiSmallIrqEdgeTriggered })
    else if info.size = 3 then
      let flags ← readAt data (entry + 3)
      .ok (.none, { view with entryIdx := 0, flags := flags })
    else .ok (.unexpectedResult, { moved with entryIdx := 0 })
  | .smallEnd => .ok (.endReached, view)
  | .largeIrq =>
    let flags ← readAt data (entry + 3)
    .ok (.none, { view with entryIdx := 0, flags := flags })
  | .largeFixedMem32 =>
    let flags ← readAt data (entry + 3)
    let base ← wordAt data (entry + 4) 4
    let length ← wordAt data (entry + 8) 4
    .ok (.none, { view with
      flags := flags
      base := BitVec.ofNat 32 base
      length := BitVec.ofNat 32 length })
  | _ => .ok (.none, view)

inductive ResourceType
  | null
  | irq
  | dma
  | io
  | mem
  | vendor
  | register
  deriving DecidableEq, Repr

def ResourceTag.type : ResourceTag → ResourceType
  | smallIrq | largeIrq => .irq
  | smallDma | smallFixedDma => .dma
  | smallIo | smallFixedIo => .io
  | smallVendor => .vendor
  | largeMem24 | largeMem32 | largeFixedMem32 => .mem
  | largeRegister => .register
  | smallEnd | unknown => .null

def laiResourceGetType (data : List Byte) (iterator : ResourceView) : Except Stop ResourceType := do
  let info ← laiGetHeaderInfo data iterator.entry
  .ok (resourceTag info.type).type

/-- What the two questions about an interrupt share: the answer of a small descriptor without flags
is no. -/
def irqFlag (small large : Byte → Bool) (data : List Byte) (iterator : ResourceView) :
    Except Stop Bool := do
  let info ← laiGetHeaderInfo data iterator.entry
  match resourceTag info.type with
  | .smallIrq =>
    if info.size < 3 then .ok false
    else
      let flags ← readAt data (iterator.entry + 3)
      .ok (small flags)
  | .largeIrq =>
    let flags ← readAt data (iterator.entry + 3)
    .ok (large flags)
  | _ => .error .ensure

def laiResourceIrqIsLevelTriggered : List Byte → ResourceView → Except Stop Bool :=
  irqFlag (fun flags => flags &&& acpiSmallIrqEdgeTriggered = 0)
    fun flags => flags &&& acpiExtendedIrqEdgeTriggered = 0

def laiResourceIrqIsActiveLow : List Byte → ResourceView → Except Stop Bool :=
  irqFlag (fun flags => flags &&& acpiSmallIrqActiveLow ≠ 0)
    fun flags => flags &&& acpiExtendedIrqActiveLow ≠ 0

/-- The search for the next bit of a mask; the mask has been cut to a byte. -/
def searchMask (mask : Byte) : ℕ → ℕ → Option ℕ
  | 0, _ => none
  | turns + 1, entryIdx =>
    if mask.toNat &&& 1 <<< entryIdx ≠ 0 then some entryIdx else searchMask mask turns (entryIdx + 1)

def laiResourceNextIrq (data : List Byte) (iterator : ResourceView) :
    Except Stop (ResourceError × ResourceView) := do
  let info ← laiGetHeaderInfo data iterator.entry
  match resourceTag info.type with
  | .smallIrq =>
    let mask ← wordAt data (iterator.entry + 1) 2
    match searchMask (BitVec.ofNat 8 mask) (16 - iterator.entryIdx) iterator.entryIdx with
    | some entryIdx =>
      .ok (.none, { iterator with gsi := BitVec.ofNat 32 entryIdx, entryIdx := entryIdx + 1 })
    | none => .ok (.endReached, { iterator with entryIdx := max 16 iterator.entryIdx })
  | .largeIrq =>
    let interruptTableLength ← readAt data (iterator.entry + 4)
    if iterator.entryIdx < interruptTableLength.toNat then
      let offset := (4 * iterator.entryIdx + 5) % 256
      let gsi ← wordAt data (iterator.entry + offset) 4
      .ok (.none, { iterator with gsi := BitVec.ofNat 32 gsi, entryIdx := iterator.entryIdx + 1 })
    else .ok (.endReached, iterator)
  | _ => .ok (.illegalArguments, iterator)

/-! ### Loops over a template

The loops have a number of turns, and `none` stands for one that has not ended by then. -/

/-- `while (!lai_resource_iterate(&view))`, with the views that it goes through. -/
def iterateAll (data : List Byte) :
    ℕ → ResourceView → Option (Except Stop (List ResourceView × ResourceError))
  | 0, _ => none
  | turns + 1, iterator =>
    match laiResourceIterate data iterator with
    | .error how => some (.error how)
    | .ok (.none, view) =>
      (iterateAll data turns view).map fun rest => do
        let (views, last) ← rest
        .ok (view :: views, last)
    | .ok (last, _) => some (.ok ([], last))

def nextAll (data : List Byte) :
    ℕ → ResourceView → Option (Except Stop (List Word × ResourceError))
  | 0, _ => none
  | turns + 1, iterator =>
    match laiResourceNextIrq data iterator with
    | .error how => some (.error how)
    | .ok (.none, view) =>
      (nextAll data turns view).map fun rest => do
        let (gsis, last) ← rest
        .ok (view.gsi :: gsis, last)
    | .ok (last, _) => some (.ok ([], last))

structure IrqRoute where
  gsi : Word
  levelTriggered : Bool
  activeLow : Bool
  deriving DecidableEq, Repr

/-- The entry of `_CRS` that `lai_pci_parse_prt` has found; `none` stands for
`LAI_ERROR_UNEXPECTED_RESULT`. -/
def linkRoute (data : List Byte) (view : ResourceView) : Except Stop (Option IrqRoute) := do
  let type ← laiResourceGetType data view
  if type ≠ .irq then .ok none
  else
    let (error, view) ← laiResourceNextIrq data view
    if error ≠ .none then .ok none
    else
      let levelTriggered ← laiResourceIrqIsLevelTriggered data view
      let activeLow ← laiResourceIrqIsActiveLow data view
      .ok (some ⟨view.gsi, levelTriggered, activeLow⟩)

/-- The loop of `lai_pci_parse_prt` over the `_CRS` of a link device. -/
def findRoute (data : List Byte) (resIndex : ℕ) :
    ℕ → ℕ → ResourceView → Option (Except Stop (Option IrqRoute))
  | 0, _, _ => none
  | turns + 1, current, iterator =>
    match laiResourceIterate data iterator with
    | .error how => some (.error how)
    | .ok (.none, view) =>
      if current = resIndex then some (linkRoute data view)
      else findRoute data resIndex turns (current + 1) view
    | .ok (_, _) => some (.ok none)

/-- `acpi_resource_t`, as far as an interrupt needs it. -/
structure IrqResource where
  base : Word
  irqFlags : Byte
  deriving DecidableEq, Repr

def maskIrqs : ℕ → BitVec 16 → ℕ → List ℕ
  | 0, _, _ => []
  | turns + 1, mask, i =>
    if mask = 0 then []
    else if mask.getLsbD i then i :: maskIrqs turns (mask &&& ~~~(1#16 <<< i)) (i + 1)
    else maskIrqs turns mask (i + 1)

def readSmallIrq (data : List Byte) (pos size : ℕ) : Except Stop (List IrqResource) := do
  let mask ← wordAt data (pos + 1) 2
  let irqs := maskIrqs 16 (BitVec.ofNat 16 mask) 0
  if irqs = [] then .ok []
  else if 3 ≤ size then
    let config ← readAt data (pos + 3)
    .ok (irqs.map fun i => ⟨BitVec.ofNat 32 i, config⟩)
  else .ok (irqs.map fun i => ⟨BitVec.ofNat 32 i, acpiSmallIrqEdgeTriggered⟩)

/-- A large descriptor of interrupts, of which there is only the first. -/
def readLargeIrq (data : List Byte) (pos : ℕ) : Except Stop IrqResource := do
  let irq ← wordAt data (pos + 5) 4
  let config ← readAt data (pos + 3)
  .ok ⟨BitVec.ofNat 32 irq, config⟩

/-- One turn of `lai_read_resource`: where it goes on, with the interrupts that it has found, or what
it returns. -/
def readDescriptor (data : List Byte) (pos : ℕ) (dest : List IrqResource) :
    Except Stop (List IrqResource ⊕ ℕ × List IrqResource) := do
  let lead ← readAt data pos
  if lead = 0x79 then .ok (.inl dest)
  else if lead &&& 0x80 = 0 then
    let size := (lead &&& 7).toNat
    match resourceTag (lead >>> 3) with
    | .smallEnd => .ok (.inl dest)
    | .smallIrq =>
      let found ← readSmallIrq data pos size
      .ok (.inr (pos + (size + 1), dest ++ found))
    | _ => .ok (.inl [])
  else
    let size ← wordAt data (pos + 1) 2
    match resourceTag lead with
    | .largeIrq =>
      let found ← readLargeIrq data pos
      .ok (.inr (pos + (size + 3), dest ++ [found]))
    | _ => .ok (.inl [])

def laiReadResource (data : List Byte) :
    ℕ → ℕ → List IrqResource → Option (Except Stop (List IrqResource))
  | 0, _, _ => none
  | turns + 1, pos, dest =>
    match readDescriptor data pos dest with
    | .error how => some (.error how)
    | .ok (.inl dest) => some (.ok dest)
    | .ok (.inr (pos, dest)) => laiReadResource data turns pos dest

end X86Os.Lai
