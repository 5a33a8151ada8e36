import X86Os.Vfs.Mount

/-!
# Reading and writing files

`vfs_read` and `vfs_write` use whatever the lookup yields as a file: there is no
test for null or for a directory.
-/

namespace X86Os.Vfs

open Library.Memory Libc
set_option autoImplicit false

def Lookup.file (found : Lookup) : Except Fault ExtFile := do
  let r ← deref found.node
  (← found.store.read r).extFile

/-- The lookup, the driver calls for the file, and the result. -/
structure Access (α : Type) where
  found : Lookup
  calls : List DriverCall
  result : α

def vfsRead (code : DriverCode) (drives : Drives) (fuel : Nat) (stack : PathBuffer) (v : Store)
    (path : CString) (offset size : Word) : Except Fault (Access FileBuffer) := do
  let found ← vfsInspect code drives fuel stack v path
  let file ← found.file
  let (calls, buf) ←
    readFile code drives (file.diskId.setWidth 32) file.contentsOnDiskPath offset size
  return ⟨found, calls, buf⟩

def vfsWrite (code : DriverCode) (drives : Drives) (fuel : Nat) (stack : PathBuffer) (v : Store)
    (path : CString) (buf : FileBuffer) (offset : Word) : Except Fault (Access Unit) := do
  let found ← vfsInspect code drives fuel stack v path
  let file ← found.file
  let (calls, _) ←
    writeFile code drives (file.diskId.setWidth 32) file.contentsOnDiskPath offset buf
  return ⟨found, calls, ()⟩

variable {code : DriverCode} {drives : Drives} {fuel : Nat} {stack : PathBuffer} {v : Store}
variable {path : CString} {offset size : Word} {buf : FileBuffer} {found : Lookup}
variable {file : ExtFile} {e : Fault} {slot : Slot}

/-- Reads and writes reach the file that the lookup yields and nothing else. The drive manager
itself answers for a slot without a drive. -/
def AccessOk (code : DriverCode) (drives : Drives) (fuel : Nat) (stack : PathBuffer) (v : Store)
    (path : CString) (offset size : Word) (buf : FileBuffer) : Prop :=
  ∀ found, vfsInspect code drives fuel stack v path = .ok found →
    match found.file with
    | .ok file => ∃ slot : Slot, slot.val = file.diskId.toNat ∧
        vfsRead code drives fuel stack v path offset size =
          .ok (if (drives slot).present then
            ⟨found, [.readFile (drives slot).readFile file.contentsOnDiskPath offset size slot],
              code.readFile (drives slot).readFile file.contentsOnDiskPath offset size slot⟩
            else ⟨found, [], ⟨0, 0⟩⟩) ∧
        vfsWrite code drives fuel stack v path buf offset =
          .ok ⟨found, if (drives slot).present then
            [.writeFile (drives slot).writeFile file.contentsOnDiskPath offset buf slot] else [], ()⟩
    | .error _ => vfsRead code drives fuel stack v path offset size = .ok ⟨found, [], ⟨0, 0⟩⟩ ∧
        vfsWrite code drives fuel stack v path buf offset = .ok ⟨found, [], ()⟩

theorem vfsRead_eq (looked : vfsInspect code drives fuel stack v path = .ok found)
    (isFile : found.file = .ok file) :
    vfsRead code drives fuel stack v path offset size =
      (readFile code drives (file.diskId.setWidth 32) file.contentsOnDiskPath offset size).map
        fun answer => ⟨found, answer.1, answer.2⟩ := by
  simp only [vfsRead, looked, ok_bind, isFile]
  cases readFile code drives (file.diskId.setWidth 32) file.contentsOnDiskPath offset size <;> rfl

theorem vfsWrite_eq (looked : vfsInspect code drives fuel stack v path = .ok found)
    (isFile : found.file = .ok file) :
    vfsWrite code drives fuel stack v path buf offset =
      (writeFile code drives (file.diskId.setWidth 32) file.contentsOnDiskPath offset buf).map
        fun answer => ⟨found, answer.1, ()⟩ := by
  simp only [vfsWrite, looked, ok_bind, isFile]
  cases writeFile code drives (file.diskId.setWidth 32) file.contentsOnDiskPath offset buf <;> rfl

/-- Without a file the read goes wrong as the lookup of the member does. -/
theorem vfsRead_error (looked : vfsInspect code drives fuel stack v path = .ok found)
    (noFile : found.file = .error e) :
    vfsRead code drives fuel stack v path offset size = .error e := by
  simp only [vfsRead, looked, ok_bind, noFile, error_bind]

theorem dispatch_inside {α : Type} {id : BitVec 16} {empty : α}
    {call : FsDriver → Slot → DriverCall × α} (own : slot.val = id.toNat) :
    dispatch drives (id.setWidth 32) empty call =
      .ok (if (drives slot).present then
        ([(call (drives slot) slot).1], (call (drives slot) slot).2) else ([], empty)) := by
  have width : (id.setWidth 32).toNat = slot.val := by
    rw [own, BitVec.toNat_setWidth_of_le (by decide)]
  have inside : (id.setWidth 32).toNat < 16 := width ▸ slot.isLt
  have same : (⟨(id.setWidth 32).toNat, inside⟩ : Slot) = slot := Fin.ext width
  rw [dispatch, dif_pos inside]
  dsimp only
  rw [same]
  split <;> rfl

/-- The accesses are right if and only if the lookup yields a file on one of the drives. -/
theorem access_ok_iff : AccessOk code drives fuel stack v path offset size buf ↔
    ∀ found, vfsInspect code drives fuel stack v path = .ok found →
      ∃ file, found.file = .ok file ∧ file.diskId.toNat < 16 := by
  constructor
  · intro ok found looked
    have here := ok found looked
    cases isFile : found.file with
    | error e =>
      rw [isFile] at here
      have := here.1
      rw [vfsRead_error looked isFile] at this
      cases this
    | ok file =>
      rw [isFile] at here
      obtain ⟨slot, own, _⟩ := here
      exact ⟨file, rfl, own ▸ slot.isLt⟩
  · intro files found looked
    obtain ⟨file, isFile, inside⟩ := files found looked
    rw [isFile]
    let slot : Slot := ⟨file.diskId.toNat, inside⟩
    have own : slot.val = file.diskId.toNat := rfl
    refine ⟨slot, own, ?_, ?_⟩
    · rw [vfsRead_eq looked isFile, readFile, dispatch_inside own]
      split <;> rfl
    · rw [vfsWrite_eq looked isFile, writeFile, dispatch_inside own]
      split <;> rfl

/-- `bc`, which no lookup finds in the tree with `/a`. -/
def pathBc : CString := ⟨[0x62, 0x63], by decide⟩

/-- Reading the directory that the lookup of `/a` yields, and reading what is not there. -/
theorem access_misses :
    ¬ AccessOk quietCode sampleDrives 9 (fun _ => 0) sampleStore (absolute [nameA]) 0 1 ⟨0, 0⟩ ∧
    ¬ AccessOk quietCode sampleDrives 9 (fun _ => 0) sampleStore pathBc 0 1 ⟨0, 0⟩ := by
  constructor
  · intro ok
    have read := (ok ⟨some .firstNode, sampleStore, []⟩ rfl).1
    rw [vfsRead_error vfsInspect_absolute rfl] at read
    cases read
  · intro ok
    have looked : vfsInspect quietCode sampleDrives 9 (fun _ => 0) sampleStore pathBc =
        .ok ⟨none, sampleStore, []⟩ := rfl
    have read := (ok _ looked).1
    rw [vfsRead_error looked rfl] at read
    cases read

end X86Os.Vfs
