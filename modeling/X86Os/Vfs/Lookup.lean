import Mathlib.Data.List.TakeWhile
import X86Os.Vfs.Drives

/-!
# Path lookup in base/core/vfs.cpp

`vfs_inspect` walks from `first_node` and enters the first child whose name the
rest of the path is a prefix of. Its test for the root path is `strcmp(path, "/")`,
which accepts every path with a leading slash, so no absolute path ever reaches
the walk.
-/

namespace X86Os.Vfs

open Library.Memory Libc
set_option autoImplicit false

def slash : CString := ⟨[0x2F], by decide⟩

/-- The local array `currpath`. Its first contents are whatever was on the stack. -/
abbrev PathBuffer := Nat → Byte

def sizeofCurrpath : Nat := 255

/-- The string in the buffer, for a reader that stays inside it. -/
def PathBuffer.string (b : PathBuffer) : Except Fault CString :=
  let bytes := ((List.range sizeofCurrpath).map b).takeWhile (· != 0)
  if bytes.length < sizeofCurrpath then
    .ok ⟨bytes, fun zero => absurd (List.mem_takeWhile_imp zero) (by decide)⟩
  else .error .outOfBounds

/-- `currpath[idx] = '/'` and the copy of a name with its terminator behind it. -/
def PathBuffer.append (b : PathBuffer) (idx : Nat) (name : CString) : Except Fault PathBuffer :=
  if idx + 1 + (strlen name + 1) ≤ sizeofCurrpath then
    .ok fun k =>
      if k = idx then 0x2F
      else if idx < k ∧ k ≤ idx + 1 + strlen name then name.bytes[k - idx - 1]?.getD 0
      else b k
  else .error .outOfBounds

def deref {α : Type} : Option α → Except Fault α
  | some a => .ok a
  | none => .error .nullDereference

def inBounds {α : Type} : Option α → Except Fault α
  | some a => .ok a
  | none => .error .outOfBounds

@[simp] theorem ok_bind {α β : Type} (a : α) (f : α → Except Fault β) :
    (Except.ok a >>= f) = f a := rfl

@[simp] theorem error_bind {α β : Type} (e : Fault) (f : α → Except Fault β) :
    (Except.error e >>= f) = .error e := rfl

@[simp] theorem deref_ok {α : Type} (a : α) : deref (some a) = .ok a := rfl

@[simp] theorem inBounds_ok {α : Type} (a : α) : inBounds (some a) = .ok a := rfl

theorem inBounds_some {α : Type} {o : Option α} {a : α} (bound : inBounds o = .ok a) :
    o = some a := by
  cases o with
  | none => cases bound
  | some b =>
    cases bound
    rfl

def Node.load (n : Node) (rep : DirReport) : Node :=
  (n.editDir fun dir =>
    { dir with numDirs := rep.numEntries.setWidth 16, files := rep.entries }).setFlag flagsLoaded (by decide)

def vfsLoadContents (code : DriverCode) (drives : Drives) (v : Store) (r : NodeRef)
    (path : CString) : Except Fault (Store × List DriverCall) := do
  let node ← v.read r
  let (calls, rep) ← iterateDir code drives (node.extDir.diskId.setWidth 32) (some path)
  return (v.write r (node.load rep), calls)

/-- `strncmp(name, src)`; an empty `src` is never compared with anything. -/
def strncmpName (name : Option CString) (src : CString) : Except Fault Bool :=
  if src.bytes = [] then .ok true else (deref name).map (strncmp · src)

/-- The loop over `files[i]`: the first child that passes the test. -/
def findChild (v : Store) (files : Word) (test : Option CString → Except Fault Bool) :
    Nat → Nat → Except Fault (Option (Nat × Node))
  | 0, _ => .ok none
  | more + 1, i => do
    let child ← v.read (.entry files i)
    if ← test child.name then return some (i, child) else findChild v files test more (i + 1)

structure Lookup where
  node : Option NodeRef
  store : Store
  calls : List DriverCall

/-- The walk. A node is never null here, and nothing reads the position of the next slash,
so the null test and the scan for the slash are left out. -/
def inspectLoop (code : DriverCode) (drives : Drives) (path : CString) :
    Nat → Store → NodeRef → PathBuffer → BitVec 8 → List DriverCall → Except Fault Lookup
  | 0, _, _, _, _, _ => .error .loops
  | fuel + 1, v, currnode, currpath, currpathidx, calls => do
    let node ← v.read currnode
    let (v, calls) ←
      if !node.has flagsLoaded && node.has flagsIsDir then do
        let (v, more) ← vfsLoadContents code drives v currnode (← currpath.string)
        pure (v, calls ++ more)
      else pure (v, calls)
    if (← inBounds (path.get currpathidx.toNat)) = 0 then return ⟨some currnode, v, calls⟩
    let node ← v.read currnode
    if !node.has flagsIsDir then return ⟨none, v, calls⟩
    let rest ← inBounds (path.drop (currpathidx.toNat + 1))
    match ← findChild v node.extDir.files (strncmpName · rest) node.extDir.numDirs.toNat 0 with
    | none => return ⟨none, v, calls⟩
    | some (i, child) =>
      let name ← deref child.name
      let currpath ← currpath.append currpathidx.toNat name
      inspectLoop code drives path fuel v (.entry node.extDir.files i) currpath
        (currpathidx + BitVec.ofNat 8 (strlen name + 1)) calls

def vfsInspect (code : DriverCode) (drives : Drives) (fuel : Nat) (stack : PathBuffer)
    (v : Store) (path : CString) : Except Fault Lookup :=
  if strcmp path slash = false then .ok ⟨some .firstNode, v, []⟩
  else inspectLoop code drives path fuel v .firstNode stack 0 []

variable {code : DriverCode} {drives : Drives} {fuel : Nat} {stack : PathBuffer} {v : Store}
variable {c : CString} {cs : List CString} {r : NodeRef}

/-- The path `/c₁/…/cₙ`. -/
def absolute (cs : List CString) : CString where
  bytes := cs.flatMap fun c => 0x2F :: c.bytes
  terminated := by
    simp only [List.mem_flatMap, List.mem_cons, not_exists, not_and, not_or]
    exact fun c _ => ⟨by decide, c.terminated⟩

def childNamed (v : Store) (r : NodeRef) (c : CString) : Option NodeRef :=
  match (v.read r).map Node.ext with
  | .ok (.extDir dir) =>
    ((List.range dir.numDirs.toNat).find? fun i =>
      (v.read (.entry dir.files i)).map Node.name = .ok (some c)).map (.entry dir.files)
  | _ => none

/-- What a lookup should find: one child after the other. -/
def resolve (v : Store) : NodeRef → List CString → Option NodeRef
  | r, [] => some r
  | r, c :: cs => (childNamed v r c).bind fun r => resolve v r cs

inductive Under (v : Store) : NodeRef → Prop
  | root : Under v .firstNode
  | child {r : NodeRef} {n : Node} {dir : ExtDir} {i : Nat} (parent : Under v r)
      (read : v.read r = .ok n) (isDir : n.ext = .extDir dir) (inside : i < dir.numDirs.toNat) :
      Under v (.entry dir.files i)

/-- A tree whose directories are loaded and whose names are usable. No two directories
share the array of their entries. -/
structure LoadedTree (v : Store) : Prop where
  root : v.firstNode.ext.isDir
  loaded : ∀ r n, Under v r → v.read r = .ok n → n.ext.isDir → n.has flagsLoaded
  present : ∀ r, Under v r → ∃ n, v.read r = .ok n
  named : ∀ r n, Under v r → r ≠ .firstNode → v.read r = .ok n →
    ∃ name, n.name = some name ∧ name.bytes ≠ [] ∧ 0x2F ∉ name.bytes
  distinct : ∀ r n dir, Under v r → v.read r = .ok n → n.ext = .extDir dir →
    ∀ i j, i < dir.numDirs.toNat → j < dir.numDirs.toNat →
      (v.read (.entry dir.files i)).map Node.name = (v.read (.entry dir.files j)).map Node.name →
      i = j
  separate : ∀ r n dir r' n' dir', Under v r → v.read r = .ok n → n.ext = .extDir dir →
    Under v r' → v.read r' = .ok n' → n'.ext = .extDir dir' →
    dir.numDirs ≠ 0 → dir'.numDirs = dir.numDirs → dir'.files = dir.files → r' = r

def InspectOk (code : DriverCode) (drives : Drives) (fuel : Nat) (stack : PathBuffer)
    (v : Store) (cs : List CString) : Prop :=
  ∃ found, vfsInspect code drives fuel stack v (absolute cs) = .ok found ∧
    found.node = resolve v .firstNode cs

theorem vfsInspect_absolute :
    vfsInspect code drives fuel stack v (absolute (c :: cs)) = .ok ⟨some .firstNode, v, []⟩ := by
  refine if_pos (strcmp_eq_false.mpr ?_)
  exact ⟨c.bytes ++ (absolute cs).bytes, rfl⟩

theorem childNamed_entry (found : childNamed v r c = some .firstNode) : False := by
  unfold childNamed at found
  split at found
  next =>
    obtain ⟨i, _, eq⟩ := Option.map_eq_some_iff.mp found
    cases eq
  next => cases found

theorem resolve_entry (found : resolve v r (c :: cs) = some .firstNode) : False := by
  induction cs generalizing r c with
  | nil =>
    obtain ⟨child, here, same⟩ := Option.bind_eq_some_iff.mp found
    obtain rfl : child = .firstNode := Option.some.inj same
    exact childNamed_entry here
  | cons c' cs ih =>
    obtain ⟨child, _, rest⟩ := Option.bind_eq_some_iff.mp found
    exact ih rest

/-- No absolute path below the root is looked up as it should be, in any store. -/
theorem inspect_never_ok (code : DriverCode) (drives : Drives) (fuel : Nat) (stack : PathBuffer)
    (v : Store) (c : CString) (cs : List CString) :
    ¬ InspectOk code drives fuel stack v (c :: cs) := by
  rintro ⟨found, looked, right⟩
  rw [vfsInspect_absolute] at looked
  cases looked
  exact resolve_entry right.symm

def emptyDir : ExtDir := ⟨0, 0, 0, 0, 0, 0, 0⟩

def nameA : CString := ⟨[0x61], by decide⟩

def dirA : Node := ⟨some nameA, 7, .extDir emptyDir, rfl⟩

/-- A root whose only entry is `/a`. -/
def sampleStore : Store where
  firstNode := ⟨some slash, 7, .extDir { emptyDir with numDirs := 1, files := 0x100 }, rfl⟩
  arrays files := if files = 0x100 then [dirA] else []

theorem sampleStore_under (under : Under sampleStore r) :
    r = .firstNode ∨ r = .entry 0x100 0 := by
  induction under with
  | root => exact .inl rfl
  | child parent read isDir inside ih =>
    obtain rfl | rfl := ih
    · cases read
      cases isDir
      obtain rfl := Nat.lt_one_iff.mp inside
      exact .inr rfl
    · cases read
      cases isDir
      exact absurd inside (Nat.not_lt_zero _)

theorem sampleStore_tree : LoadedTree sampleStore where
  root := rfl
  loaded r n under read _ := by
    obtain rfl | rfl := sampleStore_under under
    all_goals
      cases read
      rfl
  present r under := by
    obtain rfl | rfl := sampleStore_under under
    · exact ⟨_, rfl⟩
    · exact ⟨_, rfl⟩
  named r n under other read := by
    obtain rfl | rfl := sampleStore_under under
    · exact absurd rfl other
    · cases read
      exact ⟨nameA, rfl, by decide, by decide⟩
  distinct r n dir under read isDir i j hi hj _ := by
    obtain rfl | rfl := sampleStore_under under
    · cases read
      cases isDir
      exact (Nat.lt_one_iff.mp hi).trans (Nat.lt_one_iff.mp hj).symm
    · cases read
      cases isDir
      exact absurd hi (Nat.not_lt_zero _)
  separate r n dir r' n' dir' under read isDir under' read' isDir' some same _ := by
    obtain rfl | rfl := sampleStore_under under
    · obtain rfl | rfl := sampleStore_under under'
      · rfl
      · cases read
        cases read'
        cases isDir
        cases isDir'
        exact absurd same (by decide)
    · cases read
      cases isDir
      exact absurd rfl some

/-- `/a` is looked up as the root. -/
theorem inspect_misses : LoadedTree sampleStore ∧
    resolve sampleStore .firstNode [nameA] = some (.entry 0x100 0) ∧
    ¬ InspectOk quietCode noDrives 9 (fun _ => 0) sampleStore [nameA] := by
  refine ⟨sampleStore_tree, by decide, ?_⟩
  rintro ⟨found, looked, right⟩
  rw [vfsInspect_absolute] at looked
  cases looked
  cases right

end X86Os.Vfs
