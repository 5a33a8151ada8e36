import X86Os.Library.Memory

/-!
# The kernel heap of base/memory/malloc.cpp

Block headers are `alloc_struct` records in byte memory, laid out as the i386
compiler does: `allocated` at 0, `id` at 4, `size` at 8, `magic` at 12, `prev`
at 20 and `next` at 24, 28 bytes in all. The sixth magic byte lies in the
padding behind the five-byte array. Pointer arithmetic on `alloc_struct *`
moves 28 bytes a step and wraps at 32 bits.
-/

namespace X86Os.Heap

open Library.Memory
set_option autoImplicit false

structure MultibootMmapEntry where
  size : BitVec 32
  addr : BitVec 64
  len : BitVec 64
  type : BitVec 32

def MultibootMmapEntry.stop (big : MultibootMmapEntry) : BitVec 64 := big.addr + big.len

structure HeapState where
  mem : Mem
  allocId : Word

def sizeofAllocStruct : Word := 28

/-- `d += k` on an `alloc_struct *`. -/
def advance (d k : Word) : Word := d + 28 * k

def allocated (m : Mem) (d : Word) : Bool := m d != 0

def blockSize (m : Mem) (d : Word) : Word := load32 m (d + 8)

/-- The bytes of "FLOPPA". `strcpy` of this kernel copies no terminator. -/
def magicBytes : List Byte := [0x46, 0x4C, 0x4F, 0x50, 0x50, 0x41]

def checkMagic (m : Mem) (d : Word) : Bool :=
  m (d + 12) == 0x46 && m (d + 13) == 0x4C && m (d + 14) == 0x4F && m (d + 15) == 0x50 &&
    m (d + 16) == 0x50 && m (d + 17) == 0x41

def setSignature (m : Mem) (d : Word) : Mem := storeBytes m (d + 12) magicBytes

/-- The end of `pmm_setup`: the header of `root` at the start of the chosen region. -/
def setupRoot (big : MultibootMmapEntry) (h : HeapState) : HeapState :=
  let root := big.addr.setWidth 32
  let m := store8 h.mem root 0
  let m := setSignature m root
  let m := store8 m root 0
  let m := store32 m (root + 24) root
  let m := store32 m (root + 20) root
  let m := store32 m (root + 4) h.allocId
  let m := store32 m (root + 8) 0
  { mem := m, allocId := h.allocId + 1 }

/-- The loop test `(int)d < big.len + big.addr`: the pointer is sign extended to 64 bits. -/
def inRegion (big : MultibootMmapEntry) (d : Word) : Bool := d.signExtend 64 < big.stop

/-- The negated capacity test of the fresh path: the header end is added up in 32 bits. -/
def hasRoom (big : MultibootMmapEntry) (d : Word) (size : BitVec 64) : Bool :=
  !((d + sizeofAllocStruct).setWidth 64 + size > big.stop)

def writeHeader (h : HeapState) (d prev : Word) (size : BitVec 64) : HeapState :=
  let m := store8 h.mem d 1
  let m := store32 m (d + 20) prev
  let m := store32 m (prev + 24) d
  let m := setSignature m d
  let m := store32 m (d + 8) (size.setWidth 32)
  let m := store32 m (d + 4) h.allocId
  { mem := m, allocId := h.allocId + 1 }

def mallocFailed : Word := 0xFFFFFFFF

def nextHeader (m : Mem) (d : Word) : Word := advance d (blockSize m d + sizeofAllocStruct)

/-- The while loop of `malloc`; `none` when the fuel does not suffice. -/
def mallocLoop (big : MultibootMmapEntry) (size : BitVec 64) (h : HeapState) :
    Nat → Word → Word → Option (Word × HeapState)
  | 0, _, _ => none
  | fuel + 1, d, prev =>
    if inRegion big d then
      if checkMagic h.mem d then
        if !allocated h.mem d && size ≤ (blockSize h.mem d).signExtend 64 then
          some (advance d sizeofAllocStruct, { h with mem := store8 h.mem d 1 })
        else
          mallocLoop big size h fuel (nextHeader h.mem d) d
      else if hasRoom big d size then
        some (d + 4 * sizeofAllocStruct, writeHeader h d prev size)
      else
        some (mallocFailed, h)
    else
      some (mallocFailed, h)

def firstHeader (big : MultibootMmapEntry) : Word := (big.addr + 28).setWidth 32

/-- `stale` is what the uninitialised `prev` holds. -/
def malloc (big : MultibootMmapEntry) (fuel : Nat) (stale : Word) (size : BitVec 64) (h : HeapState) :
    Option (Word × HeapState) :=
  mallocLoop big size h fuel (firstHeader big) stale

def free (m : Mem) (p : Word) : Mem :=
  let d := p - 4 * sizeofAllocStruct
  if checkMagic m d then if allocated m d then store8 m d 0 else m else m

end X86Os.Heap
