import X86Os.Vfs.Nodes

/-!
# The drive manager of base/core/vfs_drive_mgr.cpp

A driver is a record of code pointers. What a driver function returns is up to
the driver, so it is a parameter; the dispatchers report the calls they make.
The registry keeps its promises for the first sixteen drivers and for device
ids below sixteen: registration answers a full table with a slot that is taken,
and the dispatchers index the table with any id.
-/

namespace X86Os.Vfs

open Library.Memory Libc
set_option autoImplicit false

structure FsDriver where
  present : Bool
  inspect : Word
  iterateDir : Word
  readFile : Word
  writeFile : Word
  privData : Word
  deriving DecidableEq

/-- An index of `drives`; `&drives[slot]` is what a driver function gets. -/
abbrev Slot := Fin 16

abbrev Drives := Slot → FsDriver

def noDrives : Drives := fun _ => ⟨false, 0, 0, 0, 0, 0⟩

/-- A call of the function at `code` for the drive in `drv`. -/
inductive DriverCall
  | inspect (code : Word) (path : Option CString) (drv : Slot)
  | iterateDir (code : Word) (path : Option CString) (drv : Slot)
  | readFile (code : Word) (path : Option CString) (offset size : Word) (drv : Slot)
  | writeFile (code : Word) (path : Option CString) (offset : Word) (buf : FileBuffer)
      (drv : Slot)
  deriving DecidableEq

structure DriverCode where
  inspect : Word → Option CString → Slot → Node
  iterateDir : Word → Option CString → Slot → DirReport
  readFile : Word → Option CString → Word → Word → Slot → FileBuffer
  writeFile : Word → Option CString → Word → FileBuffer → Slot → Bool

/-- The common shape of the four dispatchers: the calls made and the result. -/
def dispatch {α : Type} (drives : Drives) (deviceId : Word) (empty : α)
    (call : FsDriver → Slot → DriverCall × α) : Except Fault (List DriverCall × α) :=
  if inside : deviceId.toNat < 16 then
    let slot : Slot := ⟨deviceId.toNat, inside⟩
    if (drives slot).present then
      .ok ([(call (drives slot) slot).1], (call (drives slot) slot).2)
    else .ok ([], empty)
  else .error .outOfBounds

section Dispatchers

variable (code : DriverCode) (drives : Drives) (deviceId : Word) (path : Option CString)

def readFile (offset size : Word) : Except Fault (List DriverCall × FileBuffer) :=
  dispatch drives deviceId ⟨0, 0⟩ fun d slot =>
    (.readFile d.readFile path offset size slot, code.readFile d.readFile path offset size slot)

def writeFile (offset : Word) (buf : FileBuffer) : Except Fault (List DriverCall × Bool) :=
  dispatch drives deviceId false fun d slot =>
    (.writeFile d.writeFile path offset buf slot, code.writeFile d.writeFile path offset buf slot)

def iterateDir : Except Fault (List DriverCall × DirReport) :=
  dispatch drives deviceId ⟨0, 0⟩ fun d slot =>
    (.iterateDir d.iterateDir path slot, code.iterateDir d.iterateDir path slot)

def inspect : Except Fault (List DriverCall × Node) :=
  dispatch drives deviceId zeroNode fun d slot =>
    (.inspect d.inspect path slot, code.inspect d.inspect path slot)

end Dispatchers

def freeSlot (drives : Drives) : Option Slot :=
  (List.finRange 16).find? fun i => !(drives i).present

/-- The number that registration returns, and the table then. -/
def fsDriverRegister (drives : Drives) (driver : FsDriver) : Word × Drives :=
  match freeSlot drives with
  | some i => (BitVec.ofNat 32 i, Function.update drives i driver)
  | none => (0, drives)

def registerAll : List FsDriver → Drives → List Word × Drives
  | [], drives => ([], drives)
  | d :: ds, drives =>
    let (id, drives) := fsDriverRegister drives d
    let (ids, drives) := registerAll ds drives
    (id :: ids, drives)

def sampleDriver : FsDriver := ⟨true, 1, 2, 3, 4, 0⟩

/-- Drivers that answer nothing. -/
def quietCode : DriverCode :=
  ⟨fun _ _ _ => zeroNode, fun _ _ _ => ⟨0, 0⟩, fun _ _ _ _ _ => ⟨0, 0⟩, fun _ _ _ _ _ => false⟩

end X86Os.Vfs
