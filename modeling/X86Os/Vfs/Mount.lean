import X86Os.Vfs.Lookup

/-!
# Mounting a drive

`vfs_mount` has a walk of its own, with the loop over the children nested in a
copy of itself and the test of the names the other way round. Its test for the
root path is the one of `vfs_inspect`, so for every absolute path it rebuilds
`first_node` and mounts there.
-/

namespace X86Os.Vfs

open Library.Memory Libc
set_option autoImplicit false

/-- Where the walk is: `currnode`, `currpath` and `currpathidx`. -/
structure Position where
  node : NodeRef
  path : PathBuffer
  idx : BitVec 8

/-- The inner loop: step into the first child whose name the rest is no prefix of. -/
def enterChild (path : CString) (v : Store) (p : Position) : Except Fault (Option Position) := do
  let node ← v.read p.node
  let test (name : Option CString) : Except Fault Bool := do
    let rest ← inBounds (path.drop (p.idx.toNat + 1))
    return !(← strncmpName name rest)
  match ← findChild v node.extDir.files test node.extDir.numDirs.toNat 0 with
  | none => return none
  | some (i, child) =>
    let name ← deref child.name
    let currpath ← p.path.append p.idx.toNat name
    return some ⟨.entry node.extDir.files i, currpath, p.idx + BitVec.ofNat 8 (strlen name + 1)⟩

/-- The outer loop, whose bound is the number of entries of the node it is at by then. -/
def enterChildren (path : CString) (v : Store) :
    Nat → Nat → Position → Bool → Except Fault (Position × Bool)
  | 0, _, _, _ => .error .loops
  | fuel + 1, i, p, found => do
    let node ← v.read p.node
    if i < node.extDir.numDirs.toNat then
      match ← enterChild path v p with
      | some p => enterChildren path v fuel (i + 1) p true
      | none => enterChildren path v fuel (i + 1) p found
    else return (p, found)

/-- The walk: the node at the end of the path, or null where the C function returns false.
As in the lookup, `currnode` is never null and the scan for the slash has no use. -/
def mountLoop (code : DriverCode) (drives : Drives) (path : CString) :
    Nat → Store → Position → List DriverCall → Except Fault Lookup
  | 0, _, _, _ => .error .loops
  | fuel + 1, v, p, calls => do
    if (← inBounds (path.get p.idx.toNat)) = 0 then return ⟨some p.node, v, calls⟩
    let node ← v.read p.node
    if !node.has flagsIsDir then return ⟨none, v, calls⟩
    if !node.has flagsLoaded then
      let (v, more) ← vfsLoadContents code drives v p.node (← p.path.string)
      mountLoop code drives path fuel v p (calls ++ more)
    else
      let (p, found) ← enterChildren path v fuel 0 p false
      if !found then return ⟨none, v, calls⟩
      mountLoop code drives path fuel v p calls

theorem root_tagged : ((7 : Byte) &&& flagsIsDir != 0) = true := rfl

def newRoot : Node where
  name := some slash
  flags := 7
  ext := .extDir ⟨0, 0, 0, 0, 0, 1, 0⟩
  tagged := root_tagged

def Node.mount (n : Node) (rep : DirReport) : Node :=
  (n.setFlag flagsMountPoint (by decide)).editDir fun dir =>
    { dir with numDirs := rep.numEntries.setWidth 16, files := rep.entries }

/-- The end of `vfs_mount`: `currnode` gets the listing of the drive. -/
def mountAt (code : DriverCode) (drives : Drives) (diskId : BitVec 16) (v : Store) (r : NodeRef)
    (calls : List DriverCall) : Except Fault (Bool × Store × List DriverCall) := do
  let node ← v.read r
  let (more, rep) ← iterateDir code drives (diskId.setWidth 32) (some slash)
  return (true, v.write r (node.mount rep), calls ++ more)

def vfsMount (code : DriverCode) (drives : Drives) (fuel : Nat) (stack : PathBuffer) (v : Store)
    (diskId : BitVec 16) (path : CString) : Except Fault (Bool × Store × List DriverCall) := do
  if strcmp path slash = false then
    mountAt code drives diskId { v with firstNode := newRoot } .firstNode []
  else
    let found ← mountLoop code drives path fuel v ⟨.firstNode, stack, 0⟩ []
    match found.node with
    | none => return (false, found.store, found.calls)
    | some r => mountAt code drives diskId found.store r found.calls

variable {code : DriverCode} {drives : Drives} {fuel : Nat} {stack : PathBuffer} {v v' : Store}
variable {c : CString} {cs : List CString} {r r' m : NodeRef} {d : BitVec 16}

inductive Below (v : Store) (m : NodeRef) : NodeRef → Prop
  | top : Below v m m
  | child {r : NodeRef} {n : Node} {dir : ExtDir} {i : Nat} (parent : Below v m r)
      (read : v.read r = .ok n) (isDir : n.ext = .extDir dir) (inside : i < dir.numDirs.toNat) :
      Below v m (.entry dir.files i)

def ExtDir.listing (dir : ExtDir) : BitVec 16 × Word := (dir.numDirs, dir.files)

/-- A file has none. -/
def Ext.listing : Ext → Option (BitVec 16 × Word)
  | extFile _ => none
  | extDir dir => some dir.listing

def Ext.diskId : Ext → BitVec 16
  | extFile file => file.diskId
  | extDir dir => dir.diskId

/-- The node kept its flags, name, disk id and listing. -/
structure Kept (n n' : Node) : Prop where
  flags : n'.flags = n.flags
  name : n'.name = n.name
  diskId : n'.ext.diskId = n.ext.diskId
  listing : n'.ext.listing = n.ext.listing

/-- The mount point: its flag, its disk id, and the listing that its driver reports. -/
def Mounted (code : DriverCode) (drives : Drives) (v : Store) (d : BitVec 16) (m : NodeRef) :
    Prop :=
  ∃ n dir calls rep, v.read m = .ok n ∧ n.has flagsMountPoint ∧ n.ext = .extDir dir ∧
    dir.diskId = d ∧ iterateDir code drives (d.setWidth 32) (some slash) = .ok (calls, rep) ∧
    dir.listing = (rep.numEntries.setWidth 16, rep.entries)

/-- Mounting drive `d` on the directory `m` at path `cs` succeeds and changes `m` only. -/
def MountOk (code : DriverCode) (drives : Drives) (fuel : Nat) (stack : PathBuffer) (v : Store)
    (d : BitVec 16) (cs : List CString) (m : NodeRef) : Prop :=
  ∃ v' calls, vfsMount code drives fuel stack v d (absolute cs) = .ok (true, v', calls) ∧
    Mounted code drives v' d m ∧
    ∀ r n, Under v r → (r = .firstNode ∧ r ≠ m ∨ ¬ Below v m r) → v.read r = .ok n →
      ∃ n', v'.read r = .ok n' ∧ Kept n n'

theorem childNamed_some (found : childNamed v r c = some r') :
    ∃ n dir i, v.read r = .ok n ∧ n.ext = .extDir dir ∧ i < dir.numDirs.toNat ∧
      r' = .entry dir.files i := by
  unfold childNamed at found
  split at found
  next dir isDir =>
    obtain ⟨i, here, eq⟩ := Option.map_eq_some_iff.mp found
    have inside := List.mem_range.mp (List.mem_of_find?_eq_some here)
    cases read : v.read r with
    | error e =>
      rw [read] at isDir
      cases isDir
    | ok n =>
      rw [read] at isDir
      exact ⟨n, dir, i, rfl, Except.ok.inj isDir, inside, eq.symm⟩
  next => cases found

theorem resolve_under (under : Under v r) (found : resolve v r cs = some m) : Under v m := by
  induction cs generalizing r with
  | nil => exact Option.some.inj found ▸ under
  | cons c cs ih =>
    obtain ⟨child, here, rest⟩ := Option.bind_eq_some_iff.mp found
    obtain ⟨n, dir, i, read, isDir, inside, rfl⟩ := childNamed_some here
    exact ih (.child under read isDir inside) rest

/-- Whatever directory an absolute path names, the root is mounted. -/
theorem vfsMount_absolute {result : Bool × Store × List DriverCall}
    (mounted : vfsMount code drives fuel stack v d (absolute (c :: cs)) = .ok result) :
    ∃ calls rep, iterateDir code drives (d.setWidth 32) (some slash) = .ok (calls, rep) ∧
      result.2.1 = { v with firstNode := newRoot.mount rep } := by
  have root : strcmp (absolute (c :: cs)) slash = false :=
    strcmp_eq_false.mpr ⟨c.bytes ++ (absolute cs).bytes, rfl⟩
  rw [vfsMount, if_pos root] at mounted
  cases listed : iterateDir code drives (d.setWidth 32) (some slash) with
  | error e =>
    rw [mountAt, listed] at mounted
    cases mounted
  | ok report =>
    rw [mountAt, listed] at mounted
    cases mounted
    exact ⟨report.1, report.2, rfl, rfl⟩

theorem read_entry (r : NodeRef) (entry : r ≠ .firstNode) (n : Node) :
    { v with firstNode := n }.read r = v.read r := by
  cases r with
  | firstNode => exact absurd rfl entry
  | entry files i => rfl

theorem mount_listing (rep : DirReport) :
    (newRoot.mount rep).ext.listing = some (rep.numEntries.setWidth 16, rep.entries) := rfl

/-- No directory below the root is mounted as it should be: either its own node is not
touched as required, or the root is. -/
theorem mount_never_ok (tree : LoadedTree v)
    (found : resolve v .firstNode (c :: cs) = some m) :
    ¬ MountOk code drives fuel stack v d (c :: cs) m := by
  rintro ⟨v', calls, ran, mounted, frame⟩
  obtain ⟨calls', rep, listed, rfl⟩ := vfsMount_absolute ran
  have entry : m ≠ .firstNode := by
    rintro rfl
    exact resolve_entry found
  obtain ⟨n, dir, calls'', rep', read, _, isDir, _, listed', listing⟩ := mounted
  rw [listed] at listed'
  cases listed'
  rw [read_entry m entry] at read
  obtain ⟨rootNode, rootDir, i, rootRead, rootIsDir, inside, _⟩ :=
    childNamed_some (Option.bind_eq_some_iff.mp found).choose_spec.1
  cases rootRead
  obtain ⟨n', read', kept⟩ := frame .firstNode v.firstNode .root (.inl ⟨rfl, entry.symm⟩) rfl
  cases read'
  have same : rootDir.listing = dir.listing := by
    have := kept.listing
    rw [mount_listing, rootIsDir] at this
    rw [listing]
    exact (Option.some.inj this).symm
  have some : rootDir.numDirs ≠ 0 := by
    intro zero
    rw [zero] at inside
    exact Nat.not_lt_zero _ inside
  have := tree.separate .firstNode v.firstNode rootDir m n dir .root rfl rootIsDir
    (resolve_under .root found) read isDir some (congrArg Prod.fst same).symm
    (congrArg Prod.snd same).symm
  exact entry this

def sampleDrives : Drives := (fsDriverRegister noDrives sampleDriver).2

theorem mount_never_ok_sample :
    ¬ MountOk quietCode sampleDrives 9 (fun _ => 0) sampleStore 0 [nameA] (.entry 0x100 0) :=
  mount_never_ok sampleStore_tree (by decide)

/-- Mounting on `/a` rebuilds the root and leaves `/a` as it was. -/
theorem mount_misses : LoadedTree sampleStore ∧
    resolve sampleStore .firstNode [nameA] = some (.entry 0x100 0) ∧
    (sampleDrives 0).present = true ∧
    ¬ MountOk quietCode sampleDrives 9 (fun _ => 0) sampleStore 0 [nameA] (.entry 0x100 0) := by
  refine ⟨sampleStore_tree, by decide, by decide, ?_⟩
  rintro ⟨v', calls, ran, ⟨n, dir, _, _, read, flag, _⟩, _⟩
  obtain ⟨_, rep, _, rfl⟩ := vfsMount_absolute ran
  rw [read_entry (.entry 0x100 0) nofun] at read
  cases read
  exact absurd flag (by decide)

end X86Os.Vfs
