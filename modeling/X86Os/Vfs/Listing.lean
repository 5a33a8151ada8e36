import X86Os.Vfs.WalkSteps

/-!
# Directory listings

`vfs_load_contents` and `vfs_mount` put the report of a driver into a node, and
`vfs_iterate_dir` reads it back. The report counts in 32 bits, the node in 16.
A mount does not mark its node as loaded, so a lookup that comes through an
unloaded mount point puts another report in place of the one of the mount.
-/

namespace X86Os.Vfs

open Library.Memory Libc Relation
open Scheduler (bind_ok)
set_option autoImplicit false

def vfsIterateDir (code : DriverCode) (drives : Drives) (fuel : Nat) (stack : PathBuffer)
    (v : Store) (path : CString) : Except Fault (Lookup × DirReport) := do
  let file ← vfsInspect code drives fuel stack v path
  match file.node with
  | some r =>
    let node ← file.store.read r
    if !node.has flagsIsDir then return (file, ⟨0, 0⟩)
    return (file, ⟨node.extDir.numDirs.setWidth 32, node.extDir.files⟩)
  | none => return (file, ⟨0, 0⟩)

def DirReport.stored (rep : DirReport) : BitVec 16 × Word :=
  (rep.numEntries.setWidth 16, rep.entries)

def mountPoint (code : DriverCode) (drives : Drives) (fuel : Nat) (stack : PathBuffer) (v : Store)
    (path : CString) : Except Fault Lookup :=
  if strcmp path slash = false then .ok ⟨some .firstNode, { v with firstNode := newRoot }, []⟩
  else mountLoop code drives path fuel v ⟨.firstNode, stack, 0⟩ []

/-- `n` is a directory as one of the two fills left it, with the report `rep` of the driver. -/
inductive Filled (code : DriverCode) (drives : Drives) (rep : DirReport) : Node → Prop
  | load {u u' : Store} {r : NodeRef} {path : CString} {old n : Node} {asked calls : List DriverCall}
      (read : u.read r = .ok old) (isDir : old.has flagsIsDir)
      (reported : iterateDir code drives (old.extDir.diskId.setWidth 32) (some path) = .ok (asked, rep))
      (loaded : vfsLoadContents code drives u r path = .ok (u', calls))
      (left : u'.read r = .ok n) : Filled code drives rep n
  | mount {u u' : Store} {r : NodeRef} {fuel : Nat} {stack : PathBuffer} {d : BitVec 16}
      {path : CString} {n : Node} {point : Lookup} {asked calls : List DriverCall}
      (walked : mountPoint code drives fuel stack u path = .ok point) (at_ : point.node = some r)
      (reported : iterateDir code drives (d.setWidth 32) (some slash) = .ok (asked, rep))
      (mounted : vfsMount code drives fuel stack u d path = .ok (true, u', calls))
      (left : u'.read r = .ok n) (isDir : n.has flagsIsDir) : Filled code drives rep n

/-- The walk considers every reported entry: it enters the first one that passes its test. -/
def Considered (v : Store) (dir : ExtDir) (rep : DirReport) : Prop :=
  ∀ (test : Option CString → Except Fault Bool) (k : Nat) (child : Node), k < rep.numEntries.toNat →
    v.read (.entry rep.entries k) = .ok child → test child.name = .ok true →
    (∀ j < k, ∃ n, v.read (.entry rep.entries j) = .ok n ∧ test n.name = .ok false) →
    findChild v dir.files test dir.numDirs.toNat 0 = .ok (some (k, child))

def ListingOk (code : DriverCode) (drives : Drives) (fuel : Nat) (stack : PathBuffer) (v : Store)
    (path : CString) (r : NodeRef) (rep : DirReport) : Prop :=
  ∃ found dir, vfsIterateDir code drives fuel stack v path = .ok (found, rep) ∧
    (found.store.read r).map Node.ext = .ok (.extDir dir) ∧ Considered found.store dir rep

/-- The walk along `path` comes from `p` to `r` while that is not loaded, and the driver reports
`rep` for what is in `currpath` then. -/
def Reloaded (code : DriverCode) (drives : Drives) (path : CString) (v : Store) (p : Position)
    (r : NodeRef) (rep : DirReport) : Prop :=
  ∃ u q n currpath calls, ReflTransGen (InspectNext code drives path) (v, p) (u, q) ∧
    q.node = r ∧ u.read r = .ok n ∧ n.has flagsIsDir ∧ ¬ n.has flagsLoaded ∧
    q.path.string = .ok currpath ∧
    iterateDir code drives (n.extDir.diskId.setWidth 32) (some currpath) = .ok (calls, rep)

variable {code : DriverCode} {drives : Drives} {fuel : Nat} {stack : PathBuffer} {u v v' : Store}
variable {path currpath : CString} {p q : Position} {r : NodeRef} {n : Node} {dir : ExtDir}
variable {rep rep' : DirReport} {found : Lookup} {calls : List DriverCall} {d : BitVec 16}

/-! ## Filled nodes -/

@[simp] theorem load_listing (n : Node) (rep : DirReport) :
    (n.load rep).extDir.listing = rep.stored := by
  rw [Node.load, Node.setFlag_extDir, Node.editDir_extDir]
  rfl

@[simp] theorem mount_extDir_listing (n : Node) (rep : DirReport) :
    (n.mount rep).extDir.listing = rep.stored := by
  rw [Node.mount, Node.editDir_extDir]
  rfl

theorem load_isDir (isDir : n.has flagsIsDir) (rep : DirReport) : (n.load rep).has flagsIsDir := by
  rw [Node.has, Node.tagged, ← isDir, Node.has, n.tagged]
  exact Ext.isDir_setDirMember _ n.ext

theorem vfsMount_eq : vfsMount code drives fuel stack v d path =
    (mountPoint code drives fuel stack v path).bind fun found =>
      match found.node with
      | none => .ok (false, found.store, found.calls)
      | some r => mountAt code drives d found.store r found.calls := by
  unfold vfsMount mountPoint
  split <;> rfl

theorem Filled.listing (filled : Filled code drives rep n) :
    n.has flagsIsDir ∧ n.extDir.listing = rep.stored := by
  cases filled with
  | load read isDir reported loaded left =>
    simp only [vfsLoadContents, read, reported, ok_bind] at loaded
    cases loaded
    cases (read_write read).symm.trans left
    exact ⟨load_isDir isDir rep, load_listing _ rep⟩
  | mount walked at_ reported mounted left isDir =>
    rw [vfsMount_eq, walked, Except.bind] at mounted
    simp only [at_] at mounted
    obtain ⟨old, read, mounted⟩ := bind_ok mounted
    simp only [reported, ok_bind] at mounted
    cases mounted
    cases (read_write read).symm.trans left
    exact ⟨isDir, mount_extDir_listing old rep⟩

/-! ## Loading on the way -/

theorem openNode_load (read : v.read r = .ok n) (has : n.has flagsIsDir) (unloaded : ¬ n.has flagsLoaded)
    (reported : iterateDir code drives (n.extDir.diskId.setWidth 32) (some currpath) = .ok (calls, rep)) :
    openNode code drives v r (.ok currpath) = .ok (v.write r (n.load rep)) := by
  simp only [openNode, read, ok_bind, has, unloaded, vfsLoadContents, reported]
  rfl

theorem openNode_cases {string : Except Fault CString} (opened : openNode code drives v r string = .ok v') :
    v' = v ∨ ∃ n currpath calls rep, v.read r = .ok n ∧ n.has flagsIsDir ∧ ¬ n.has flagsLoaded ∧
      string = .ok currpath ∧
      iterateDir code drives (n.extDir.diskId.setWidth 32) (some currpath) = .ok (calls, rep) ∧
      v' = v.write r (n.load rep) := by
  obtain ⟨n, read, opened⟩ := bind_ok opened
  split at opened
  next load =>
    obtain ⟨currpath, filled, opened⟩ := bind_ok opened
    obtain ⟨⟨u, calls⟩, contents, opened⟩ := bind_ok opened
    obtain ⟨n', read', contents⟩ := bind_ok contents
    cases read.symm.trans read'
    obtain ⟨⟨asked, rep⟩, reported, contents⟩ := bind_ok contents
    cases contents
    cases opened
    rw [Bool.and_eq_true, Bool.not_eq_true'] at load
    exact .inr ⟨n, currpath, calls, rep, read, load.2, by simp [load.1], filled, reported, rfl⟩
  next =>
    cases opened
    exact .inl rfl

theorem openNode_kept {string : Except Fault CString} {q : NodeRef}
    (opened : openNode code drives v q string = .ok v') (read : v.read r = .ok n)
    (loaded : n.has flagsLoaded) : v'.read r = .ok n := by
  obtain rfl | ⟨m, _, _, rep, read', _, unloaded, _, _, rfl⟩ := openNode_cases opened
  · exact read
  · rw [read_write_other, read]
    rintro rfl
    cases read.symm.trans read'
    exact unloaded loaded

theorem inspectLoop_kept (read : v.read r = .ok n) (loaded : n.has flagsLoaded)
    (walked : inspectLoop code drives path fuel v p.node p.path p.idx calls = .ok found) :
    found.store.read r = .ok n := by
  induction fuel generalizing v p calls with
  | zero => cases walked
  | succ fuel ih =>
    obtain ⟨u, opened, ⟨_, rfl, _⟩ | ⟨q, calls', _, rest⟩⟩ := inspectLoop_opened walked
    · exact openNode_kept opened read loaded
    · exact ih (openNode_kept opened read loaded) rest

/-- A lookup changes a node only by loading it. -/
theorem inspectLoop_reloads (read : v.read r = .ok n)
    (walked : inspectLoop code drives path fuel v p.node p.path p.idx calls = .ok found) :
    found.store.read r = .ok n ∨ ∃ rep, Reloaded code drives path v p r rep ∧
      found.store.read r = .ok (n.load rep) := by
  induction fuel generalizing v p calls with
  | zero => cases walked
  | succ fuel ih =>
    obtain ⟨u, opened, next⟩ := inspectLoop_opened walked
    have here : u.read r = .ok n ∨ ∃ rep, Reloaded code drives path v p r rep ∧
        u.read r = .ok (n.load rep) := by
      obtain rfl | ⟨m, currpath, calls, rep, read', has, unloaded, string, reported, rfl⟩ :=
        openNode_cases opened
      · exact .inl read
      · obtain rfl | other := eq_or_ne r p.node
        · cases read.symm.trans read'
          exact .inr ⟨rep, ⟨v, p, n, currpath, calls, .refl, rfl, read, has, unloaded, string,
            reported⟩, read_write read⟩
        · exact .inl ((read_write_other other).trans read)
    obtain ⟨_, rfl, _⟩ | ⟨q, calls', step, rest⟩ := next
    · exact here
    · obtain same | ⟨rep, reloaded, loaded⟩ := here
      · refine (ih same rest).imp_right ?_
        rintro ⟨rep, ⟨w, q', m, currpath, asked, run, reached⟩, loaded⟩
        exact ⟨rep, ⟨w, q', m, currpath, asked, .head step run, reached⟩, loaded⟩
      · exact .inr ⟨rep, reloaded, inspectLoop_kept loaded (load_has n rep) rest⟩

/-- Where the walk meets the node unloaded, the lookup leaves the report of then. -/
theorem reloaded_listing (reloaded : Reloaded code drives path v p r rep)
    (walked : inspectLoop code drives path fuel v p.node p.path p.idx calls = .ok found) :
    ∃ n, found.store.read r = .ok n ∧ n.extDir.listing = rep.stored := by
  obtain ⟨u, q, n, currpath, asked, run, rfl, read, has, unloaded, string, reported⟩ := reloaded
  generalize start : (v, p) = s at run
  induction run using ReflTransGen.head_induction_on generalizing v p fuel calls with
  | refl =>
    cases start
    cases fuel with
    | zero => cases walked
    | succ fuel =>
      obtain ⟨v', opened, next⟩ := inspectLoop_opened walked
      rw [string, openNode_load read has unloaded reported] at opened
      cases opened
      have left : found.store.read q.node = .ok (n.load rep) := by
        obtain ⟨_, same, _⟩ | ⟨_, _, _, rest⟩ := next
        · rw [same]
          exact read_write read
        · exact inspectLoop_kept (read_write read) (load_has n rep) rest
      exact ⟨n.load rep, left, load_listing n rep⟩
  | head step _ ih =>
    cases start
    cases fuel with
    | zero => cases walked
    | succ fuel =>
      obtain ⟨v', _, ⟨stop, _⟩ | ⟨p', calls', step', rest⟩⟩ := inspectLoop_opened walked
      · cases stop.symm.trans step
      · cases step'.symm.trans step
        exact ih rest rfl

/-! ## The listing of a lookup -/

theorem vfsIterateDir_eq {file : Node} (looked : vfsInspect code drives fuel stack v path = .ok found)
    (resolved : found.node = some r) (read : found.store.read r = .ok file)
    (isDir : file.has flagsIsDir) : vfsIterateDir code drives fuel stack v path =
      .ok (found, ⟨file.extDir.numDirs.setWidth 32, file.extDir.files⟩) := by
  rw [vfsIterateDir, looked, ok_bind]
  simp only [resolved, read, ok_bind, isDir]
  rfl

theorem stored_wide_iff : (⟨dir.numDirs.setWidth 32, dir.files⟩ : DirReport) = rep ↔
    rep.numEntries.toNat < 2 ^ 16 ∧ dir.listing = rep.stored := by
  constructor
  · rintro rfl
    refine ⟨?_, ?_⟩
    · rw [BitVec.toNat_setWidth_of_le (by decide)]
      exact dir.numDirs.isLt
    · simp [ExtDir.listing, DirReport.stored]
  · rintro ⟨small, same⟩
    rw [ExtDir.listing, DirReport.stored, Prod.mk.injEq] at same
    obtain ⟨count, files⟩ := rep
    rw [same.1, same.2, DirReport.mk.injEq]
    refine ⟨BitVec.eq_of_toNat_eq ?_, rfl⟩
    rw [BitVec.toNat_setWidth, BitVec.toNat_setWidth, Nat.mod_eq_of_lt small]
    exact Nat.mod_eq_of_lt count.isLt

theorem considered_of_same (same : (⟨dir.numDirs.setWidth 32, dir.files⟩ : DirReport) = rep) :
    Considered v dir rep := by
  subst same
  intro test k child inside read passes before
  rw [BitVec.toNat_setWidth_of_le (by decide)] at inside
  exact findChild_some.mpr ⟨⟨k.zero_le, by omega⟩, read, passes, fun j _ => before j⟩

theorem listingOk_iff {file : Node} (looked : vfsInspect code drives fuel stack v path = .ok found)
    (resolved : found.node = some r) (read : found.store.read r = .ok file)
    (isDir : file.has flagsIsDir) : ListingOk code drives fuel stack v path r rep ↔
      rep.numEntries.toNat < 2 ^ 16 ∧ file.extDir.listing = rep.stored := by
  rw [← stored_wide_iff]
  constructor
  · rintro ⟨found', dir', listed, _⟩
    rw [vfsIterateDir_eq looked resolved read isDir] at listed
    cases listed
    rfl
  · intro same
    refine ⟨found, file.extDir, ?_, ?_, considered_of_same same⟩
    · rw [vfsIterateDir_eq looked resolved read isDir, same]
    · rw [read, ← Node.has_isDir.mp isDir]
      rfl

/-- A reported listing is passed through if and only if it has fewer than 65536 entries and the
lookup does not load the node anew with another one. -/
theorem listing_ok_iff (filled : Filled code drives rep n) (read : v.read r = .ok n)
    (looked : vfsInspect code drives fuel stack v path = .ok found) (resolved : found.node = some r) :
    ListingOk code drives fuel stack v path r rep ↔ rep.numEntries.toNat < 2 ^ 16 ∧
      (strcmp path slash = false ∨
        ∀ rep', Reloaded code drives path v ⟨.firstNode, stack, 0⟩ r rep' → rep'.stored = rep.stored) := by
  obtain ⟨isDir, listing⟩ := filled.listing
  by_cases root : strcmp path slash = false
  · have same : found = ⟨some .firstNode, v, []⟩ := by
      rw [vfsInspect, if_pos root] at looked
      exact (Except.ok.inj looked).symm
    have kept : found.store.read r = .ok n := same ▸ read
    rw [listingOk_iff looked resolved kept isDir]
    exact and_congr_right fun _ => iff_of_true listing (.inl root)
  · have walked := looked
    rw [vfsInspect, if_neg root] at walked
    obtain same | ⟨rep', reloaded, left⟩ :=
      inspectLoop_reloads (p := ⟨.firstNode, stack, 0⟩) read walked
    · rw [listingOk_iff looked resolved same isDir]
      refine and_congr_right fun _ => iff_of_true listing (.inr ?_)
      intro rep' reloaded
      obtain ⟨n', read', listing'⟩ := reloaded_listing reloaded walked
      cases same.symm.trans read'
      exact listing'.symm.trans listing
    · rw [listingOk_iff looked resolved left (load_isDir isDir rep'), load_listing]
      refine and_congr_right fun _ => ⟨fun same => .inr ?_, fun all => ?_⟩
      · intro rep'' again
        obtain ⟨n', read', listing'⟩ := reloaded_listing again walked
        cases left.symm.trans read'
        rw [← listing', load_listing]
        exact same
      · exact (all.resolve_left root) rep' reloaded

def reportingCode (rep : DirReport) : DriverCode :=
  { quietCode with iterateDir := fun _ _ _ => rep }

def mountedStore (rep : DirReport) : Store :=
  { sampleStore with firstNode := newRoot.mount rep }

theorem mountedStore_filled (rep : DirReport) :
    Filled (reportingCode rep) sampleDrives rep (mountedStore rep).firstNode :=
  have mounted : vfsMount (reportingCode rep) sampleDrives 0 (fun _ => 0) sampleStore 0 slash =
      .ok (true, mountedStore rep, _) := rfl
  have point : mountPoint (reportingCode rep) sampleDrives 0 (fun _ => 0) sampleStore slash = .ok _ := rfl
  have isDir : (newRoot.mount rep).has flagsIsDir :=
    show (7 ||| flagsMountPoint) &&& flagsIsDir != 0 by decide
  .mount point rfl rfl mounted rfl isDir

theorem listing_ok_iff_sample :
    ListingOk (reportingCode ⟨1, 0x100⟩) sampleDrives 0 (fun _ => 0) (mountedStore ⟨1, 0x100⟩) slash
      .firstNode ⟨1, 0x100⟩ :=
  (listing_ok_iff (mountedStore_filled ⟨1, 0x100⟩) rfl rfl rfl).mpr ⟨by decide, .inl rfl⟩

/-- A drive with 65536 entries in its root directory: the listing of `/` is empty. -/
theorem listing_lost :
    Filled (reportingCode ⟨0x10000, 0x100⟩) sampleDrives ⟨0x10000, 0x100⟩
      (mountedStore ⟨0x10000, 0x100⟩).firstNode ∧
    ¬ ListingOk (reportingCode ⟨0x10000, 0x100⟩) sampleDrives 0 (fun _ => 0)
      (mountedStore ⟨0x10000, 0x100⟩) slash .firstNode ⟨0x10000, 0x100⟩ := by
  refine ⟨mountedStore_filled _, ?_⟩
  rintro ⟨found, dir, listed, _⟩
  have empty : vfsIterateDir (reportingCode ⟨0x10000, 0x100⟩) sampleDrives 0 (fun _ => 0)
      (mountedStore ⟨0x10000, 0x100⟩) slash =
        .ok (⟨some .firstNode, mountedStore ⟨0x10000, 0x100⟩, []⟩, ⟨0, 0x100⟩) := rfl
  rw [empty] at listed
  have counts : (0 : Word) = 0x10000 :=
    congrArg (fun answer => answer.2.numEntries) (Except.ok.inj listed)
  exact absurd counts (by decide)

end X86Os.Vfs
