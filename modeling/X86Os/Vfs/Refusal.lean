import X86Os.Scheduler.Steps
import X86Os.Vfs.Mount

/-!
# Mounts that should fail

`vfs_mount` never asks whether its drive is there: `iterate_dir` answers for an
absent one with an empty listing, which becomes the listing of the node. So a
mount is refused only where the walk gets stuck, and the root branch has no walk.
Before it gives up the walk may load directories, and changes nothing else.
-/

namespace X86Os.Vfs

open Library.Memory Libc
open Scheduler (bind_ok)
set_option autoImplicit false

/-- A directory that was not loaded gets the listing that its drive reports. -/
def LoadedFrom (code : DriverCode) (drives : Drives) (n n' : Node) : Prop :=
  n.has flagsIsDir ∧ ¬ n.has flagsLoaded ∧ ∃ path calls rep,
    iterateDir code drives (n.extDir.diskId.setWidth 32) (some path) = .ok (calls, rep) ∧
    n' = n.load rep

def OnlyLoads (code : DriverCode) (drives : Drives) (v v' : Store) : Prop :=
  ∀ r n, v.read r = .ok n → ∃ n', v'.read r = .ok n' ∧ (n' = n ∨ LoadedFrom code drives n n')

def MountRefused (code : DriverCode) (drives : Drives) (stack : PathBuffer) (v : Store)
    (diskId : BitVec 16) (path : CString) : Prop :=
  ∃ fuel v' calls, vfsMount code drives fuel stack v diskId path = .ok (false, v', calls) ∧
    OnlyLoads code drives v v'

/-- With some of the path left over the walk comes to a node that is no directory, or to one
where the rest of the path begins the name of every child. -/
inductive Blocked (code : DriverCode) (drives : Drives) (path : CString) : Store → Position → Prop
  | file {v : Store} {p : Position} {n : Node} {b : Byte}
      (more : path.get p.idx.toNat = some b) (notEnd : b ≠ 0) (read : v.read p.node = .ok n)
      (notDir : ¬ n.has flagsIsDir) : Blocked code drives path v p
  | noChild {v : Store} {p : Position} {n : Node} {b : Byte}
      (more : path.get p.idx.toNat = some b) (notEnd : b ≠ 0) (read : v.read p.node = .ok n)
      (isDir : n.has flagsIsDir) (loaded : n.has flagsLoaded)
      (closed : enterChild path v p = .ok none) : Blocked code drives path v p
  | load {v v' : Store} {p : Position} {n : Node} {b : Byte} {currpath : CString}
      {calls : List DriverCall} (more : path.get p.idx.toNat = some b) (notEnd : b ≠ 0)
      (read : v.read p.node = .ok n) (isDir : n.has flagsIsDir) (unloaded : ¬ n.has flagsLoaded)
      (string : p.path.string = .ok currpath)
      (load : vfsLoadContents code drives v p.node currpath = .ok (v', calls))
      (rest : Blocked code drives path v' p) : Blocked code drives path v p
  | enter {v : Store} {p p' : Position} {n : Node} {b : Byte} {fuel : Nat}
      (more : path.get p.idx.toNat = some b) (notEnd : b ≠ 0) (read : v.read p.node = .ok n)
      (isDir : n.has flagsIsDir) (loaded : n.has flagsLoaded)
      (children : enterChildren path v fuel 0 p false = .ok (p', true))
      (rest : Blocked code drives path v p') : Blocked code drives path v p

variable {code : DriverCode} {drives : Drives} {fuel : Nat} {stack : PathBuffer} {v v' v'' : Store}
variable {r r' : NodeRef} {n m : Node} {d : BitVec 16} {path currpath : CString} {p p' : Position}
variable {calls : List DriverCall} {found : Bool} {i : Nat}

/-! ## Loading -/

theorem read_write (read : v.read r = .ok n) : (v.write r m).read r = .ok m := by
  cases r with
  | firstNode => rfl
  | entry files i =>
    rw [Store.read] at read
    split at read
    next => cases read
    next notNull =>
      split at read
      next here =>
        have inside := (List.getElem?_eq_some_iff.mp here).1
        simp only [Store.write, Store.read, if_neg notNull, Function.update_self,
          List.getElem?_set_self inside]
      next => cases read

theorem read_write_other (other : r' ≠ r) : (v.write r m).read r' = v.read r' := by
  cases r with
  | firstNode =>
    cases r' with
    | firstNode => exact absurd rfl other
    | entry files i => rfl
  | entry files i =>
    cases r' with
    | firstNode => rfl
    | entry files' i' =>
      obtain rfl | away := eq_or_ne files' files
      · have apart : i ≠ i' := by
          rintro rfl
          exact other rfl
        simp [Store.read, Store.write, List.getElem?_set_ne apart]
      · simp [Store.read, Store.write, Function.update_of_ne away]

theorem load_has (n : Node) (rep : DirReport) : (n.load rep).has flagsLoaded := by
  have absorb : (n.flags ||| flagsLoaded) &&& flagsLoaded = flagsLoaded := by
    apply BitVec.eq_of_getLsbD_eq
    intro i hi
    rw [BitVec.getLsbD_and, BitVec.getLsbD_or]
    cases flagsLoaded.getLsbD i <;> simp
  simp only [Node.has, Node.load, Node.setFlag, Node.editDir, absorb]
  rfl

namespace OnlyLoads

theorem refl (code : DriverCode) (drives : Drives) (v : Store) : OnlyLoads code drives v v :=
  fun _ n read => ⟨n, read, .inl rfl⟩

theorem trans (first : OnlyLoads code drives v v') (second : OnlyLoads code drives v' v'') :
    OnlyLoads code drives v v'' := by
  intro r n read
  obtain ⟨n', read', rfl | loaded⟩ := first r n read
  · exact second r n' read'
  · obtain ⟨n'', read'', rfl | again⟩ := second r n' read'
    · exact ⟨n'', read'', .inr loaded⟩
    · -- a loaded directory is not loaded again
      obtain ⟨_, _, _, _, rep, _, rfl⟩ := loaded
      exact absurd (load_has n rep) again.2.1

theorem load (read : v.read r = .ok n) (isDir : n.has flagsIsDir) (unloaded : ¬ n.has flagsLoaded)
    (load : vfsLoadContents code drives v r currpath = .ok (v', calls)) :
    OnlyLoads code drives v v' := by
  obtain ⟨node, read', rest⟩ := bind_ok load
  cases read.symm.trans read'
  obtain ⟨⟨_, rep⟩, listed, rest⟩ := bind_ok rest
  cases rest
  intro r' n' here
  obtain rfl | other := eq_or_ne r' r
  · cases read.symm.trans here
    exact ⟨_, read_write read, .inr ⟨isDir, unloaded, currpath, calls, rep, listed, rfl⟩⟩
  · exact ⟨n', (read_write_other other).trans here, .inl rfl⟩

end OnlyLoads

/-! ## The children -/

theorem enterChildren_mono {q : Position × Bool} (entered : enterChildren path v fuel i p found = .ok q)
    {more : Nat} (enough : fuel ≤ more) : enterChildren path v more i p found = .ok q := by
  induction fuel generalizing i p found more with
  | zero => cases entered
  | succ fuel ih =>
    obtain ⟨more, rfl⟩ := Nat.exists_eq_add_of_le' (Nat.one_le_of_lt enough)
    have enough := Nat.le_of_succ_le_succ enough
    rw [enterChildren] at entered ⊢
    obtain ⟨node, read, entered⟩ := bind_ok entered
    simp only [read, ok_bind]
    split at entered
    next inside =>
      obtain ⟨entry, child, entered⟩ := bind_ok entered
      rw [if_pos inside, child, ok_bind]
      cases entry with
      | some p => exact ih entered enough
      | none => exact ih entered enough
    next outside => rwa [if_neg outside]

theorem enterChildren_found (entered : enterChildren path v fuel i p true = .ok (p', found)) :
    found = true := by
  induction fuel generalizing i p with
  | zero => cases entered
  | succ fuel ih =>
    rw [enterChildren] at entered
    obtain ⟨node, read, entered⟩ := bind_ok entered
    split at entered
    next =>
      obtain ⟨entry, child, entered⟩ := bind_ok entered
      cases entry with
      | some p => exact ih entered
      | none => exact ih entered
    next =>
      cases entered
      rfl

/-- Where no child can be entered at first, none can be entered later. -/
theorem enterChildren_closed (entered : enterChildren path v fuel 0 p false = .ok (p', false)) :
    enterChild path v p = .ok none := by
  obtain ⟨fuel, rfl⟩ : ∃ k, fuel = k + 1 := by
    cases fuel with
    | zero => cases entered
    | succ k => exact ⟨k, rfl⟩
  rw [enterChildren] at entered
  obtain ⟨node, read, entered⟩ := bind_ok entered
  split at entered
  next inside =>
    obtain ⟨entry, child, entered⟩ := bind_ok entered
    cases entry with
    | some p => cases enterChildren_found entered
    | none => exact child
  next outside =>
    have empty : node.extDir.numDirs.toNat = 0 := by omega
    simp only [enterChild, read, ok_bind, empty, findChild]
    rfl

theorem enterChildren_none (read : v.read p.node = .ok n) (closed : enterChild path v p = .ok none)
    (enough : n.extDir.numDirs.toNat - i < fuel) :
    enterChildren path v fuel i p found = .ok (p, found) := by
  induction fuel generalizing i with
  | zero => omega
  | succ fuel ih =>
    rw [enterChildren]
    simp only [read, ok_bind]
    split
    next =>
      rw [closed, ok_bind]
      exact ih (by omega)
    next => rfl

/-! ## The walk -/

inductive MountRound (code : DriverCode) (drives : Drives) (path : CString) (fuel : Nat) (v : Store)
    (p : Position) (calls : List DriverCall) (found : Lookup) : Prop
  | ended (more : path.get p.idx.toNat = some 0) (same : found = ⟨some p.node, v, calls⟩)
  | file {n : Node} {b : Byte} (more : path.get p.idx.toNat = some b) (notEnd : b ≠ 0)
      (read : v.read p.node = .ok n) (notDir : ¬ n.has flagsIsDir) (same : found = ⟨none, v, calls⟩)
  | load {v' : Store} {n : Node} {b : Byte} {currpath : CString} {loads : List DriverCall}
      (more : path.get p.idx.toNat = some b) (notEnd : b ≠ 0) (read : v.read p.node = .ok n)
      (isDir : n.has flagsIsDir) (unloaded : ¬ n.has flagsLoaded) (string : p.path.string = .ok currpath)
      (load : vfsLoadContents code drives v p.node currpath = .ok (v', loads))
      (rest : mountLoop code drives path fuel v' p (calls ++ loads) = .ok found)
  | enter {n : Node} {b : Byte} {p' : Position} {entered : Bool}
      (more : path.get p.idx.toNat = some b) (notEnd : b ≠ 0) (read : v.read p.node = .ok n)
      (isDir : n.has flagsIsDir) (loaded : n.has flagsLoaded)
      (children : enterChildren path v fuel 0 p false = .ok (p', entered))
      (rest : (if !entered then pure ⟨none, v, calls⟩
        else mountLoop code drives path fuel v p' calls) = .ok found)

theorem mountLoop_round {found : Lookup}
    (walked : mountLoop code drives path (fuel + 1) v p calls = .ok found) :
    MountRound code drives path fuel v p calls found := by
  rw [mountLoop] at walked
  obtain ⟨b, more, walked⟩ := bind_ok walked
  have more := inBounds_some more
  split at walked
  next zero =>
    cases walked
    exact .ended (zero ▸ more) rfl
  next notEnd =>
    obtain ⟨node, read, walked⟩ := bind_ok walked
    split at walked
    next file =>
      cases walked
      exact .file more notEnd read (by simpa using file) rfl
    next isDir =>
      have isDir : node.has flagsIsDir := by simpa using isDir
      split at walked
      next unloaded =>
        obtain ⟨currpath, string, walked⟩ := bind_ok walked
        obtain ⟨⟨v', loads⟩, load, walked⟩ := bind_ok walked
        exact .load more notEnd read isDir (by simpa using unloaded) string load walked
      next loaded =>
        obtain ⟨⟨p', entered⟩, children, walked⟩ := bind_ok walked
        exact .enter more notEnd read isDir (by simpa using loaded) children walked

theorem blocked_of_none {found : Lookup} (walked : mountLoop code drives path fuel v p calls = .ok found)
    (none : found.node = none) : Blocked code drives path v p := by
  induction fuel generalizing v p calls with
  | zero => cases walked
  | succ fuel ih =>
    cases mountLoop_round walked with
    | ended _ same =>
      rw [same] at none
      cases none
    | file more notEnd read notDir _ => exact .file more notEnd read notDir
    | load more notEnd read isDir unloaded string load rest =>
      exact .load more notEnd read isDir unloaded string load (ih rest)
    | @enter _ _ p' entered more notEnd read isDir loaded children rest =>
      cases entered with
      | false => exact .noChild more notEnd read isDir loaded (enterChildren_closed children)
      | true => exact .enter more notEnd read isDir loaded children (ih rest)

/-- Where the walk gets stuck it gives up, with fuel enough, and has loaded directories only. -/
theorem none_of_blocked (blocked : Blocked code drives path v p) :
    ∃ fuel v', OnlyLoads code drives v v' ∧ ∀ more, fuel ≤ more → ∀ calls, ∃ calls',
      mountLoop code drives path more v p calls = .ok ⟨none, v', calls'⟩ := by
  induction blocked with
  | @file v p n b more notEnd read notDir =>
    refine ⟨1, v, OnlyLoads.refl code drives v, ?_⟩
    intro fuel enough calls
    obtain ⟨fuel, rfl⟩ := Nat.exists_eq_add_of_le' enough
    refine ⟨calls, ?_⟩
    simp only [mountLoop, more, inBounds_ok, ok_bind, if_neg notEnd, read, notDir]
    rfl
  | @noChild v p n b more notEnd read isDir loaded closed =>
    refine ⟨n.extDir.numDirs.toNat + 2, v, OnlyLoads.refl code drives v, ?_⟩
    intro fuel enough calls
    obtain ⟨fuel, rfl⟩ := Nat.exists_eq_add_of_le' (Nat.one_le_of_lt enough)
    have shut : enterChildren path v fuel 0 p false = .ok (p, false) :=
      enterChildren_none read closed (by omega)
    refine ⟨calls, ?_⟩
    simp only [mountLoop, more, inBounds_ok, ok_bind, if_neg notEnd, read, isDir, loaded, shut]
    rfl
  | @load v v' p n b currpath loads more notEnd read isDir unloaded string load rest ih =>
    obtain ⟨fuel, last, only, ends⟩ := ih
    refine ⟨fuel + 1, last, (OnlyLoads.load read isDir unloaded load).trans only, ?_⟩
    intro fuel' enough calls
    obtain ⟨fuel', rfl⟩ := Nat.exists_eq_add_of_le' (Nat.one_le_of_lt enough)
    obtain ⟨calls', walked⟩ := ends fuel' (by omega) (calls ++ loads)
    refine ⟨calls', ?_⟩
    simp only [mountLoop, more, inBounds_ok, ok_bind, if_neg notEnd, read, isDir, unloaded, string, load]
    exact walked
  | @enter v p p' n b steps more notEnd read isDir loaded children rest ih =>
    obtain ⟨fuel, last, only, ends⟩ := ih
    refine ⟨fuel + steps + 1, last, only, ?_⟩
    intro fuel' enough calls
    obtain ⟨fuel', rfl⟩ := Nat.exists_eq_add_of_le' (Nat.one_le_of_lt enough)
    obtain ⟨calls', walked⟩ := ends fuel' (by omega) calls
    have entered := enterChildren_mono children (show steps ≤ fuel' by omega)
    refine ⟨calls', ?_⟩
    simp only [mountLoop, more, inBounds_ok, ok_bind, if_neg notEnd, read, isDir, loaded, entered]
    exact walked

theorem mountAt_true {d : BitVec 16} {result : Bool × Store × List DriverCall}
    (mounted : mountAt code drives d v r calls = .ok result) : result.1 = true := by
  obtain ⟨node, _, rest⟩ := bind_ok mounted
  obtain ⟨⟨more, rep⟩, _, rest⟩ := bind_ok rest
  cases rest
  rfl

/-- A file of 10 bytes. -/
def fileAaa : Node where
  name := some ⟨[0x61, 0x61, 0x61], by decide⟩
  flags := 1
  ext := .extFile ⟨0, 0, 0, 0, 10, 0, 0, some ⟨[0x61, 0x61, 0x61], by decide⟩⟩
  tagged := rfl

/-- A root with one entry, the file `aaa`. -/
def fileStore : Store :=
  { sampleStore with arrays := fun files => if files = 0x100 then [fileAaa] else [] }

-- `xbcdef`: the file is entered, the upper half of its size counts no entries, and it is no directory
example : MountRefused quietCode sampleDrives (fun _ => 0) fileStore 0
    ⟨[0x78, 0x62, 0x63, 0x64, 0x65, 0x66], by decide⟩ :=
  ⟨9, fileStore, [], rfl, OnlyLoads.refl quietCode sampleDrives fileStore⟩

/-- `b`, which the tree with `/a` does not name. -/
def nameB : CString := ⟨[0x62], by decide⟩

end X86Os.Vfs
