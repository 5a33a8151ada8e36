import X86Os.Libc.Strings

/-!
# The nodes of the virtual file system

`first_node` is a global; every other node is an entry of the array that some
directory points to. The arrays belong to the drivers, which fill them before
they hand them out. The union of a node is tagged by the `FLAGS_ISDIR` bit.
`vfs_mount` reads `ext_dir` of whatever node it has entered, and of a file that
gives other bytes of the file. In base/include/stdint.h `uint64_t` is
`unsigned long`, of 32 bits here, and `size_t` has 64 bits.
-/

namespace X86Os.Vfs

open Library.Memory Libc
set_option autoImplicit false

/-- Accesses that C leaves undefined, and walks that do not end. -/
inductive Fault
  | outOfBounds
  | nullDereference
  | unionMisread
  | loops
  deriving DecidableEq

/-- The pointer is aligned, which leaves two bytes behind `disk_id`. -/
structure ExtFile where
  ownerUser : Byte
  ownerGroup : Byte
  creationDateUnixTime : Word
  lastModifiedUnixTime : Word
  size : Word
  diskId : BitVec 16
  padding : BitVec 16
  contentsOnDiskPath : Option CString
  deriving DecidableEq

structure ExtDir where
  ownerUser : Byte
  ownerGroup : Byte
  creationDateUnixTime : Word
  lastModifiedUnixTime : Word
  diskId : BitVec 16
  numDirs : BitVec 16
  files : Word
  deriving DecidableEq

inductive Ext
  | extFile (file : ExtFile)
  | extDir (dir : ExtDir)
  deriving DecidableEq

theorem append_halves (w : Word) : w.extractLsb' 16 16 ++ w.setWidth 16 = w := by
  ext i inside
  simp only [BitVec.getElem_append, BitVec.getElem_extractLsb', BitVec.getElem_setWidth]
  split
  next => rw [BitVec.getLsbD_eq_getElem]
  next => rw [Nat.add_sub_cancel' (by omega), BitVec.getLsbD_eq_getElem]

namespace Ext

def isDir : Ext → Bool
  | extFile _ => false
  | extDir _ => true

/-- The member `ext_dir`. `disk_id` and `num_dirs` are where a file has its `size`, and `files` is
where it has its `disk_id`. -/
def dirMember : Ext → ExtDir
  | extFile file =>
    { ownerUser := file.ownerUser
      ownerGroup := file.ownerGroup
      creationDateUnixTime := file.creationDateUnixTime
      lastModifiedUnixTime := file.lastModifiedUnixTime
      diskId := file.size.setWidth 16
      numDirs := file.size.extractLsb' 16 16
      files := file.padding ++ file.diskId }
  | extDir dir => dir

def setDirMember (dir : ExtDir) : Ext → Ext
  | extFile file => extFile
    { ownerUser := dir.ownerUser
      ownerGroup := dir.ownerGroup
      creationDateUnixTime := dir.creationDateUnixTime
      lastModifiedUnixTime := dir.lastModifiedUnixTime
      size := dir.numDirs ++ dir.diskId
      diskId := dir.files.setWidth 16
      padding := dir.files.extractLsb' 16 16
      contentsOnDiskPath := file.contentsOnDiskPath }
  | extDir _ => extDir dir

@[simp] theorem isDir_setDirMember (dir : ExtDir) (e : Ext) : (e.setDirMember dir).isDir = e.isDir := by
  cases e <;> rfl

/-- What is stored in the member is read back from it, in a file too. -/
@[simp] theorem dirMember_setDirMember (dir : ExtDir) (e : Ext) : (e.setDirMember dir).dirMember = dir := by
  cases e with
  | extDir old => rfl
  | extFile file =>
    have low : (dir.numDirs ++ dir.diskId).setWidth 16 = dir.diskId := BitVec.setWidth_append_eq_right
    have high : (dir.numDirs ++ dir.diskId).extractLsb' 16 16 = dir.numDirs :=
      BitVec.extractLsb'_append_eq_left
    simp only [dirMember, setDirMember, low, high, append_halves]

end Ext

def flagsIsDir : Byte := 2
def flagsLoaded : Byte := 4
def flagsMountPoint : Byte := 8

structure Node where
  name : Option CString
  flags : Byte
  ext : Ext
  tagged : (flags &&& flagsIsDir != 0) = ext.isDir
  deriving DecidableEq

namespace Node

def has (n : Node) (flag : Byte) : Bool := n.flags &&& flag != 0

def extDir (n : Node) : ExtDir := n.ext.dirMember

/-- `n->ext.ext_file`, which of a directory is no file. -/
def extFile (n : Node) : Except Fault ExtFile :=
  match n.ext with
  | .extFile file => .ok file
  | .extDir _ => .error .unionMisread

theorem or_isDir {flags flag : Byte} (other : flag &&& flagsIsDir = 0) :
    (flags ||| flag) &&& flagsIsDir = flags &&& flagsIsDir := by
  have split : (flags ||| flag) &&& flagsIsDir = flags &&& flagsIsDir ||| flag &&& flagsIsDir := by
    apply BitVec.eq_of_getLsbD_eq
    intro i hi
    simp [Bool.and_or_distrib_right]
  rw [split, other]
  exact BitVec.or_zero

/-- `n->flags |= flag`, for the flags that do not change the tag. -/
def setFlag (n : Node) (flag : Byte) (other : flag &&& flagsIsDir = 0) : Node :=
  { n with
    flags := n.flags ||| flag
    tagged := by
      rw [or_isDir other]
      exact n.tagged }

def editDir (n : Node) (f : ExtDir → ExtDir) : Node :=
  { n with
    ext := n.ext.setDirMember (f n.extDir)
    tagged := by rw [n.tagged, Ext.isDir_setDirMember] }

@[simp] theorem setFlag_extDir (n : Node) (flag : Byte) (other : flag &&& flagsIsDir = 0) :
    (n.setFlag flag other).extDir = n.extDir := rfl

@[simp] theorem editDir_extDir (n : Node) (f : ExtDir → ExtDir) : (n.editDir f).extDir = f n.extDir :=
  Ext.dirMember_setDirMember (f n.extDir) n.ext

/-- A node that is tagged as a directory is one. -/
theorem has_isDir {n : Node} : n.has flagsIsDir ↔ n.ext = .extDir n.extDir := by
  rw [has, n.tagged, extDir]
  cases n.ext <;> simp [Ext.isDir, Ext.dirMember]

end Node

def zeroNode : Node where
  name := none
  flags := 0
  ext := .extFile ⟨0, 0, 0, 0, 0, 0, 0, none⟩
  tagged := rfl

inductive NodeRef
  | firstNode
  | entry (files : Word) (i : Nat)
  deriving DecidableEq

structure Store where
  firstNode : Node
  arrays : Word → List Node

namespace Store

def read (v : Store) : NodeRef → Except Fault Node
  | .firstNode => .ok v.firstNode
  | .entry files i =>
    if files = 0 then .error .nullDereference
    else match (v.arrays files)[i]? with
      | some n => .ok n
      | none => .error .outOfBounds

def write (v : Store) : NodeRef → Node → Store
  | .firstNode, n => { v with firstNode := n }
  | .entry files i, n =>
    { v with arrays := Function.update v.arrays files ((v.arrays files).set i n) }

end Store

structure DirReport where
  numEntries : Word
  entries : Word
  deriving DecidableEq

structure FileBuffer where
  data : Word
  size : BitVec 64
  deriving DecidableEq

end X86Os.Vfs
