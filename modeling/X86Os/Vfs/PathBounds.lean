import Mathlib.Data.List.Range
import X86Os.Vfs.WalkSteps

/-!
# Where the path walks leave the path and its buffer

The index moves on by the names of the children that are entered, whatever is left
of the path. `currpath` holds these names, with a slash in front of each, so a walk
stays inside where that string is short enough: for the array, and for the path
wherever the path is read again.
-/

namespace X86Os.Vfs

open Library.Memory Libc Relation
open Scheduler (bind_ok)
set_option autoImplicit false

/-- What is left of the path behind index `k` begins the name; an empty rest is not compared. -/
def Begins (path : CString) (k : Nat) (name : Option CString) : Prop :=
  path.bytes.drop (k + 1) = [] ∨ ∃ s, name = some s ∧ path.bytes.drop (k + 1) <+: s.bytes

def Differs (path : CString) (k : Nat) (name : Option CString) : Prop :=
  ∃ s, name = some s ∧ ¬ path.bytes.drop (k + 1) <+: s.bytes

def AllSkipped (v : Store) (dir : ExtDir) (skip : Option CString → Prop) : Prop :=
  ∀ i < dir.numDirs.toNat, ∃ m, v.read (.entry dir.files i) = .ok m ∧ skip m.name

structure FirstEntry (v : Store) (dir : ExtDir) (skip pick : Option CString → Prop) (i : Nat)
    (m : Node) : Prop where
  inside : i < dir.numDirs.toNat
  read : v.read (.entry dir.files i) = .ok m
  picked : pick m.name
  before : ∀ j < i, ∃ m, v.read (.entry dir.files j) = .ok m ∧ skip m.name

/-- What `currpath` holds when these names have been entered. -/
def currpathOf (stack : PathBuffer) (names : List CString) : Except Fault CString :=
  if names = [] then stack.string else .ok (absolute names)

/-- Where `vfs_mount` comes to: the names entered so far, and how often the outer loop over the
entries has entered a child since the path was read. It enters children whose names the rest of
the path does not begin, and reads the path again when no entry is left or none differs. -/
inductive MountTrail (code : DriverCode) (drives : Drives) (path : CString) (stack : PathBuffer)
    (start : Store) : Store → NodeRef → List CString → Nat → Prop
  | root : MountTrail code drives path stack start start .firstNode [] 0
  | load {v v' : Store} {r : NodeRef} {n : Node} {names : List CString} {string : CString}
      {calls : List DriverCall} (trail : MountTrail code drives path stack start v r names 0)
      (left : strlen (absolute names) < path.bytes.length) (read : v.read r = .ok n)
      (isDir : n.has flagsIsDir) (unloaded : ¬ n.has flagsLoaded)
      (holds : currpathOf stack names = .ok string)
      (load : vfsLoadContents code drives v r string = .ok (v', calls)) :
      MountTrail code drives path stack start v' r names 0
  | enter {v : Store} {r : NodeRef} {n m : Node} {names : List CString} {i j : Nat} {name : CString}
      (trail : MountTrail code drives path stack start v r names i) (read : v.read r = .ok n)
      (head : i = 0 → strlen (absolute names) < path.bytes.length ∧ n.has flagsIsDir ∧ n.has flagsLoaded)
      (inside : i < n.extDir.numDirs.toNat)
      (first : FirstEntry v n.extDir (Begins path (strlen (absolute names)))
        (Differs path (strlen (absolute names))) j m)
      (named : m.name = some name) :
      MountTrail code drives path stack start v (.entry n.extDir.files j) (names ++ [name]) (i + 1)
  | again {v : Store} {r : NodeRef} {n : Node} {names : List CString} {i : Nat}
      (trail : MountTrail code drives path stack start v r names i) (entered : 0 < i)
      (read : v.read r = .ok n)
      (finished : n.extDir.numDirs.toNat ≤ i ∨
        AllSkipped v n.extDir (Begins path (strlen (absolute names)))) :
      MountTrail code drives path stack start v r names 0

/-- The names entered fit into the array. They are no longer than the path where the path is read
again, and shorter where it is compared with an entry. -/
structure NamesFit (path : CString) (v : Store) (r : NodeRef) (names : List CString) (i : Nat) :
    Prop where
  array : strlen (absolute names) < sizeofCurrpath
  again : i = 0 → strlen (absolute names) ≤ path.bytes.length
  compare : ∀ n m, 0 < i → v.read r = .ok n → i < n.extDir.numDirs.toNat →
    v.read (.entry n.extDir.files 0) = .ok m → strlen (absolute names) < path.bytes.length

def TrailFits (code : DriverCode) (drives : Drives) (path : CString) (stack : PathBuffer) (start : Store) :
    Prop :=
  ∀ v r names i, MountTrail code drives path stack start v r names i → NamesFit path v r names i

def MountFits (code : DriverCode) (drives : Drives) (stack : PathBuffer) (v : Store) (path : CString) :
    Prop :=
  slash.bytes <+: path.bytes ∨ TrailFits code drives path stack v

/-- The child of the root that `vfs_inspect` enters, in the store as it is by then. -/
def InspectEnters (code : DriverCode) (drives : Drives) (stack : PathBuffer) (v : Store) (path : CString)
    (v' : Store) (r : NodeRef) (name : CString) : Prop :=
  path.bytes ≠ [] ∧ openNode code drives v .firstNode stack.string = .ok v' ∧
    ∃ n i m, v'.read .firstNode = .ok n ∧ n.has flagsIsDir ∧
      FirstEntry v' n.extDir (Differs path 0) (Begins path 0) i m ∧ m.name = some name ∧
      r = .entry n.extDir.files i

/-- The first child whose name the rest of the path begins has just that name, unless its own
listing cannot be loaded, and the name fits into the array. -/
def ChildFits (code : DriverCode) (drives : Drives) (path : CString) (stack : PathBuffer) (start : Store) :
    Prop :=
  ∀ v r name, InspectEnters code drives stack start path v r name →
    strlen (absolute [name]) < sizeofCurrpath ∧
      ∀ v', openNode code drives v r (.ok (absolute [name])) = .ok v' → name.bytes = path.bytes.drop 1

def InspectFits (code : DriverCode) (drives : Drives) (stack : PathBuffer) (v : Store) (path : CString) :
    Prop :=
  slash.bytes <+: path.bytes ∨ ChildFits code drives path stack v

abbrev InspectReach (code : DriverCode) (drives : Drives) (path : CString) (stack : PathBuffer)
    (start : Store) (s : Store × Position) : Prop :=
  ReflTransGen (InspectNext code drives path) (start, ⟨.firstNode, stack, 0⟩) s

abbrev MountReach (code : DriverCode) (drives : Drives) (path : CString) (stack : PathBuffer)
    (start : Store) (s : MountState) : Prop :=
  ReflTransGen (MountNext code drives path) ⟨start, ⟨.firstNode, stack, 0⟩, .top⟩ s

/-- `strcmp(path, "/")` reads the first character. The walk follows if it is no slash. -/
def InspectInside (code : DriverCode) (drives : Drives) (stack : PathBuffer) (v : Store)
    (path : CString) : Prop :=
  (WalkAccess.path 0).Inside path.bytes.length ∧ (strcmp path slash = true →
    ∀ s, InspectReach code drives path stack v s →
      ∀ a ∈ inspectAccesses code drives path s.1 s.2, a.Inside path.bytes.length)

def MountInside (code : DriverCode) (drives : Drives) (stack : PathBuffer) (v : Store)
    (path : CString) : Prop :=
  (WalkAccess.path 0).Inside path.bytes.length ∧ (strcmp path slash = true →
    ∀ s, MountReach code drives path stack v s →
      ∀ a ∈ mountAccesses path s, a.Inside path.bytes.length)

variable {code : DriverCode} {drives : Drives} {path : CString} {stack : PathBuffer} {v v' : Store}
variable {p p' : Position} {r : NodeRef} {names : List CString} {name : CString} {i j k : Nat} {n m : Node}
variable {dir : ExtDir} {test : Option CString → Except Fault Bool} {skip pick : Option CString → Prop}
variable {found : Bool}

/-! ## The tests of the names -/

theorem inspectTest_eq (inside : k < path.bytes.length) (name : Option CString) :
    (inspectTest path k name = .ok true ↔ Begins path k name) ∧
      (inspectTest path k name = .ok false ↔ Differs path k name) := by
  obtain ⟨rest, drop, bytes⟩ : ∃ rest, path.drop (k + 1) = some rest ∧
      rest.bytes = path.bytes.drop (k + 1) := ⟨_, if_pos inside, rfl⟩
  rw [inspectTest, drop, inBounds_ok, ok_bind, strncmpName, Begins, Differs, ← bytes]
  by_cases empty : rest.bytes = []
  · simp [empty]
  · rw [if_neg empty]
    cases name with
    | none => simp [deref, Except.map, empty]
    | some s => simp [Except.map, strncmp, empty, ← strcmp_eq_false]

theorem mountTest_eq (inside : k < path.bytes.length) (name : Option CString) :
    (mountTest path k name = .ok true ↔ Differs path k name) ∧
      (mountTest path k name = .ok false ↔ Begins path k name) := by
  rw [← (inspectTest_eq inside name).1, ← (inspectTest_eq inside name).2, mountTest]
  cases inspectTest path k name with
  | error e => simp
  | ok passes => cases passes <;> simp [pure, Except.pure]

theorem findChild_first (picks : ∀ name, test name = .ok true ↔ pick name)
    (skips : ∀ name, test name = .ok false ↔ skip name) :
    findChild v dir.files test dir.numDirs.toNat 0 = .ok (some (i, m)) ↔
      FirstEntry v dir skip pick i m := by
  simp only [findChild_some, picks, skips, Nat.zero_le, true_and, forall_const, Nat.zero_add]
  constructor
  · rintro ⟨inside, read, picked, before⟩
    exact ⟨inside, read, picked, before⟩
  · rintro ⟨inside, read, picked, before⟩
    exact ⟨inside, read, picked, before⟩

theorem findChild_skipped (skips : ∀ name, test name = .ok false ↔ skip name) :
    findChild v dir.files test dir.numDirs.toNat 0 = .ok none ↔ AllSkipped v dir skip := by
  simp only [findChild_none, skips, Nat.zero_le, forall_const, Nat.zero_add, AllSkipped]

theorem FirstEntry.first (first : FirstEntry v dir skip pick i m) :
    ∃ m, v.read (.entry dir.files 0) = .ok m := by
  cases i with
  | zero => exact ⟨m, first.read⟩
  | succ i =>
    obtain ⟨m, read, _⟩ := first.before 0 i.succ_pos
    exact ⟨m, read⟩

theorem AllSkipped.none (skipped : AllSkipped v dir (Begins path k)) :
    ¬ FirstEntry v dir (Begins path k) (Differs path k) i m := by
  intro first
  obtain ⟨m', read, begins⟩ := skipped i first.inside
  cases first.read.symm.trans read
  obtain ⟨s, named, differs⟩ := first.picked
  obtain empty | ⟨s', named', begins⟩ := begins
  · exact differs (empty ▸ List.nil_prefix)
  · cases named.symm.trans named'
    exact differs begins

/-! ## The buffer -/

theorem string_of_chars {b : PathBuffer} {s : CString}
    (chars : ∀ k < strlen s, s.bytes[k]? = some (b k)) (stop : b (strlen s) = 0)
    (short : strlen s < sizeofCurrpath) : b.string = .ok s := by
  have start : (List.range (strlen s)).map b = s.bytes := by
    apply List.ext_getElem?
    intro k
    rw [List.getElem?_map]
    by_cases inside : k < strlen s
    · rw [List.getElem?_range inside, chars k inside]
      rfl
    · rw [List.getElem?_eq_none (not_lt.mp inside), List.getElem?_eq_none (by simpa using inside)]
      rfl
  obtain ⟨more, size⟩ := Nat.exists_eq_add_of_lt short
  have split : (List.range sizeofCurrpath).map b =
      s.bytes ++ 0 :: (List.range more).map fun k => b (strlen s + (k + 1)) := by
    rw [size, Nat.add_assoc, List.range_add, List.map_append, start, List.range_succ_eq_map]
    simp [stop, Function.comp_def]
  have bytes : ((List.range sizeofCurrpath).map b).takeWhile (· != 0) = s.bytes := by
    rw [split, List.takeWhile_append_of_pos]
    · simp
    · intro c mem
      have nonzero : c ≠ 0 := fun zero => s.terminated (zero ▸ mem)
      simpa using nonzero
  simp only [PathBuffer.string, bytes]
  exact if_pos short

theorem absolute_snoc :
    (absolute (names ++ [name])).bytes = (absolute names).bytes ++ 0x2F :: name.bytes := by
  simp [absolute]

@[simp] theorem strlen_snoc :
    strlen (absolute (names ++ [name])) = strlen (absolute names) + 1 + strlen name := by
  simp only [strlen, absolute_snoc, List.length_append, List.length_cons]
  omega

theorem append_ok {b : PathBuffer} {idx : Nat} :
    (∃ b', b.append idx name = .ok b') ↔ idx + 1 + strlen name < sizeofCurrpath := by
  unfold PathBuffer.append
  split <;> simp <;> omega

structure Appended (b : PathBuffer) (idx : Nat) (name : CString) (b' : PathBuffer) : Prop where
  before : ∀ k < idx, b' k = b k
  slash : b' idx = 0x2F
  chars : ∀ k < strlen name, name.bytes[k]? = some (b' (idx + (k + 1)))
  stop : b' (idx + 1 + strlen name) = 0

theorem append_spec {b b' : PathBuffer} {idx : Nat} (append : b.append idx name = .ok b') :
    Appended b idx name b' := by
  have size : sizeofCurrpath = 255 := rfl
  have short := append_ok.mp ⟨b', append⟩
  rw [PathBuffer.append, if_pos (by omega)] at append
  cases append
  constructor
  case before =>
    intro k lt
    rw [if_neg lt.ne, if_neg (by omega)]
  case slash => exact if_pos rfl
  case chars =>
    intro k lt
    have place : idx + (k + 1) - idx - 1 = k := by omega
    rw [if_neg (by omega), if_pos (by omega), place, List.getElem?_eq_getElem lt, Option.getD_some]
  case stop =>
    have behind : name.bytes.length ≤ idx + 1 + strlen name - idx - 1 := by
      change strlen name ≤ _
      omega
    rw [if_neg (by omega), if_pos (by omega), List.getElem?_eq_none behind, Option.getD_none]

structure Tracks (stack : PathBuffer) (names : List CString) (p : Position) : Prop where
  idx : p.idx.toNat = strlen (absolute names)
  chars : ∀ k < strlen (absolute names), (absolute names).bytes[k]? = some (p.path k)
  stop : names ≠ [] → p.path (strlen (absolute names)) = 0
  start : names = [] → p.path = stack

namespace Tracks

theorem root (stack : PathBuffer) (r : NodeRef) : Tracks stack [] ⟨r, stack, 0⟩ where
  idx := rfl
  chars k inside := absurd inside k.not_lt_zero
  stop nonempty := absurd rfl nonempty
  start _ := rfl

theorem string (tracks : Tracks stack names p) (short : strlen (absolute names) < sizeofCurrpath) :
    p.path.string = currpathOf stack names := by
  unfold currpathOf
  split
  next empty => rw [tracks.start empty]
  next nonempty => exact string_of_chars tracks.chars (tracks.stop nonempty) short

theorem enter {b : PathBuffer} (tracks : Tracks stack names p)
    (append : p.path.append p.idx.toNat name = .ok b) (r : NodeRef) :
    Tracks stack (names ++ [name]) ⟨r, b, p.idx + BitVec.ofNat 8 (strlen name + 1)⟩ := by
  have size : sizeofCurrpath = 255 := rfl
  have short := append_ok.mp ⟨b, append⟩
  have new := append_spec append
  rw [tracks.idx] at short new
  have idx := tracks.idx
  constructor
  case idx =>
    rw [strlen_snoc]
    simp only [BitVec.toNat_add, BitVec.toNat_ofNat]
    omega
  case chars =>
    intro k inside
    rw [strlen_snoc] at inside
    rw [absolute_snoc]
    unfold strlen at inside new
    dsimp only
    obtain before | rfl | behind := Nat.lt_trichotomy k (absolute names).bytes.length
    · rw [List.getElem?_append_left before, tracks.chars k before, new.before k before]
    · rw [List.getElem?_append_right le_rfl, new.slash]
      simp
    · obtain ⟨k, rfl⟩ := Nat.exists_eq_add_of_lt behind
      rw [Nat.add_assoc, List.getElem?_append_right (Nat.le_add_right _ _), Nat.add_sub_cancel_left,
        List.getElem?_cons_succ]
      exact new.chars k (by unfold strlen; omega)
  case stop =>
    intro _
    rw [strlen_snoc]
    exact new.stop
  case start => simp

end Tracks

/-! ## The lookup -/

theorem findChild_alike (left : k < path.bytes.length) :
    findChild v dir.files (inspectTest path k) dir.numDirs.toNat 0 = .ok (some (i, m)) ↔
      FirstEntry v dir (Differs path k) (Begins path k) i m :=
  findChild_first (fun name => (inspectTest_eq left name).1) (fun name => (inspectTest_eq left name).2)

theorem inspect_enters {t : Store × Position} :
    InspectNext code drives path (v, ⟨.firstNode, stack, 0⟩) t ↔ ∃ r name b,
      InspectEnters code drives stack v path t.1 r name ∧ stack.append 0 name = .ok b ∧
        t.2 = ⟨r, b, 0 + BitVec.ofNat 8 (strlen name + 1)⟩ := by
  rw [inspectNext_iff]
  constructor
  · rintro ⟨left, opened, n, read, isDir, entered⟩
    obtain ⟨i, m, name, b, child, named, append, same⟩ := (enterFirst_some read).mp entered
    have first := (findChild_alike left).mp child
    exact ⟨.entry n.extDir.files i, name, b, ⟨List.ne_nil_of_length_pos left, opened, n, i, m, read, isDir,
      first, named, rfl⟩, append, same⟩
  · rintro ⟨r, name, b, ⟨nonempty, opened, n, i, m, read, isDir, first, named, rfl⟩, append, same⟩
    have left : 0 < path.bytes.length := List.length_pos_iff.mpr nonempty
    refine ⟨left, opened, n, read, isDir, ?_⟩
    refine (enterFirst_some read).mpr ⟨i, m, name, b, ?_, named, append, same⟩
    exact (findChild_alike left).mpr first

theorem strlen_single : strlen (absolute [name]) = 0 + 1 + strlen name := by
  rw [← List.nil_append [name], strlen_snoc]
  rfl

theorem single_end (nonempty : path.bytes ≠ []) (exact : name.bytes = path.bytes.drop 1) :
    strlen (absolute [name]) = path.bytes.length := by
  have left : 0 < path.bytes.length := List.length_pos_iff.mpr nonempty
  rw [strlen_single, strlen, exact, List.length_drop]
  omega

/-- A name that the rest begins and that is no longer is the rest. -/
theorem Begins.exact (begins : Begins path 0 (some name))
    (short : strlen (absolute [name]) ≤ path.bytes.length) : name.bytes = path.bytes.drop 1 := by
  have length : name.bytes.length ≤ (path.bytes.drop 1).length := by
    rw [strlen_single, strlen] at short
    rw [List.length_drop]
    omega
  obtain empty | ⟨s, same, start⟩ := begins
  · rw [empty] at length ⊢
    exact List.length_eq_zero_iff.mp (Nat.le_zero.mp length)
  · cases same
    exact (start.eq_of_length_le length).symm

theorem inspect_root_inside {a : WalkAccess}
    (fits : ChildFits code drives path stack v)
    (mem : a ∈ inspectAccesses code drives path v ⟨.firstNode, stack, 0⟩) : a.Inside path.bytes.length := by
  obtain ⟨v', opened, rfl | ⟨left, n, read, isDir, scan | entries⟩⟩ := mem_inspectAccesses.mp mem
  · exact Nat.zero_le _
  · exact scan_inside left scan
  · rw [childAccesses_eq read] at entries
    refine entries_inside left (show 0 < 255 by decide) ?_ entries
    intro i m name found named
    have first := (findChild_alike left).mp found
    refine strlen_single.symm.trans_lt (fits v' (.entry n.extDir.files i) name ?_).1
    exact ⟨List.ne_nil_of_length_pos left, opened, n, i, m, read, isDir, first, named, rfl⟩

theorem childFits_of_inside (inside : ∀ s, InspectReach code drives path stack v s →
    ∀ a ∈ inspectAccesses code drives path s.1 s.2, a.Inside path.bytes.length) :
    ChildFits code drives path stack v := by
  intro v' r name enters
  obtain ⟨nonempty, opened, n, i, m, read, isDir, first, named, rfl⟩ := id enters
  have left : 0 < path.bytes.length := List.length_pos_iff.mpr nonempty
  have child := (findChild_alike left).mpr first
  have short : 0 + 1 + strlen name < sizeofCurrpath := by
    refine enter_inside.mp fun a mem => inside _ .refl a ?_
    refine mem_inspectAccesses.mpr ⟨v', opened, .inr ⟨left, n, read, isDir, .inr ?_⟩⟩
    rw [childAccesses_eq read]
    exact mem_entries_enter child named mem
  have short' := strlen_single.trans_lt short
  refine ⟨short', ?_⟩
  intro v'' reopened
  obtain ⟨b, append⟩ := append_ok.mpr short
  have step : InspectNext code drives path (v, ⟨.firstNode, stack, 0⟩) (v', _) :=
    inspect_enters.mpr ⟨_, name, b, enters, append, rfl⟩
  have tracks := (Tracks.root stack .firstNode).enter append (.entry n.extDir.files i)
  have string : b.string = .ok (absolute [name]) := tracks.string short'
  rw [← string] at reopened
  have read : (WalkAccess.path _).Inside path.bytes.length :=
    inside _ (.single step) _ (mem_inspectAccesses.mpr ⟨v'', reopened, .inl rfl⟩)
  exact Begins.exact (named ▸ first.picked) (tracks.idx.symm.trans_le read)

/-- The walk is at the root, or at the child, where its next step fails if the child fits. -/
theorem inspect_place {s : Store × Position} (fits : ChildFits code drives path stack v)
    (run : InspectReach code drives path stack v s) :
    s = (v, ⟨.firstNode, stack, 0⟩) ∨
      ∀ v', openNode code drives s.1 s.2.node s.2.path.string = .ok v' →
        s.2.idx.toNat = path.bytes.length := by
  induction run with
  | refl => exact .inl rfl
  | @tail s t _ step ih =>
    obtain rfl | atEnd := ih
    · obtain ⟨r, name, b, enters, append, same⟩ := inspect_enters.mp step
      obtain ⟨short, exact⟩ := fits _ _ _ enters
      have tracks := (Tracks.root stack .firstNode).enter append r
      rw [same]
      refine .inr fun v' opened => ?_
      rw [tracks.string short] at opened
      exact tracks.idx.trans (single_end enters.1 (exact v' opened))
    · obtain ⟨left, opened, _⟩ := inspectNext_iff.mp step
      exact absurd left (atEnd _ opened ▸ lt_irrefl _)

theorem inspect_inside_iff (code : DriverCode) (drives : Drives) (stack : PathBuffer) (v : Store)
    (path : CString) :
    InspectInside code drives stack v path ↔ InspectFits code drives stack v path := by
  unfold InspectInside InspectFits
  rw [← strcmp_eq_false]
  constructor
  · rintro ⟨_, inside⟩
    refine or_iff_not_imp_left.mpr fun walks => ?_
    exact childFits_of_inside (inside (by simpa using walks))
  · intro fits
    refine ⟨Nat.zero_le _, fun walks s run a mem => ?_⟩
    have fits := fits.resolve_left (by simpa using walks)
    obtain rfl | atEnd := inspect_place fits run
    · exact inspect_root_inside fits mem
    · obtain ⟨v', opened, rfl | ⟨left, _⟩⟩ := mem_inspectAccesses.mp mem
      · exact (atEnd v' opened).le
      · exact absurd left (atEnd v' opened ▸ lt_irrefl _)

/-! ## The mount -/

def phaseAt : Nat → Phase
  | 0 => .top
  | i + 1 => .entries (i + 1) true

theorem findChild_differs (left : k < path.bytes.length) :
    findChild v dir.files (mountTest path k) dir.numDirs.toNat 0 = .ok (some (i, m)) ↔
      FirstEntry v dir (Begins path k) (Differs path k) i m :=
  findChild_first (fun name => (mountTest_eq left name).1) (fun name => (mountTest_eq left name).2)

theorem findChild_begins (left : k < path.bytes.length) :
    findChild v dir.files (mountTest path k) dir.numDirs.toNat 0 = .ok none ↔
      AllSkipped v dir (Begins path k) :=
  findChild_skipped fun name => (mountTest_eq left name).2

theorem mount_enters {b : PathBuffer} (tracks : Tracks stack names p) (read : v.read p.node = .ok n)
    (within : i < n.extDir.numDirs.toNat) (left : strlen (absolute names) < path.bytes.length)
    (first : FirstEntry v n.extDir (Begins path (strlen (absolute names)))
      (Differs path (strlen (absolute names))) j m) (named : m.name = some name)
    (append : p.path.append p.idx.toNat name = .ok b) :
    MountNext code drives path ⟨v, p, .entries i found⟩
      ⟨v, ⟨.entry n.extDir.files j, b, p.idx + BitVec.ofNat 8 (strlen name + 1)⟩, .entries (i + 1) true⟩ := by
  refine (mountNext_entries read).mpr (.inl ⟨within, some _, ?_, rfl⟩)
  rw [enterChild_eq, tracks.idx]
  refine (enterFirst_some read).mpr ⟨j, m, name, b, ?_, named, append, rfl⟩
  exact (findChild_differs left).mpr first

/-- Where all names begin with the rest, the outer loop runs to its end and the path is read again. -/
theorem mount_again (tracks : Tracks stack names p) (read : v.read p.node = .ok n)
    (left : strlen (absolute names) < path.bytes.length)
    (skipped : AllSkipped v n.extDir (Begins path (strlen (absolute names)))) (i : Nat) :
    ReflTransGen (MountNext code drives path) ⟨v, p, .entries i true⟩ ⟨v, p, .top⟩ := by
  induction rest : n.extDir.numDirs.toNat - i generalizing i with
  | zero => exact .single ((mountNext_entries read).mpr (.inr ⟨by omega, rfl, rfl⟩))
  | succ rest ih =>
    have closed : enterChild path v p = .ok none := by
      rw [enterChild_eq, enterFirst_none read, tracks.idx]
      exact (findChild_begins left).mpr skipped
    have step : MountNext code drives path ⟨v, p, .entries i true⟩ _ :=
      (mountNext_entries read).mpr (.inl ⟨by omega, none, closed, rfl⟩)
    exact .head step (ih (i + 1) (by omega))

/-- At a place that is reached the names fit as far as the accesses there show. -/
theorem namesFit_of_inside (tracks : Tracks stack names p) (short : strlen (absolute names) < sizeofCurrpath)
    (inside : ∀ a ∈ mountAccesses path ⟨v, p, phaseAt i⟩, a.Inside path.bytes.length) :
    NamesFit path v p.node names i := by
  constructor
  case array => exact short
  case again =>
    rintro rfl
    have read : (WalkAccess.path _).Inside path.bytes.length :=
      inside _ (mem_mountAccesses_top.mpr (.inl rfl))
    exact tracks.idx.symm.trans_le read
  case compare =>
    intro n m entered read within first
    obtain ⟨i, rfl⟩ := Nat.exists_eq_succ_of_ne_zero entered.ne'
    obtain ⟨more, num⟩ := Nat.exists_eq_add_of_lt (Nat.zero_lt_of_lt within)
    have access : (WalkAccess.path (p.idx.toNat + 1)).Inside path.bytes.length := by
      refine inside _ (mem_mountAccesses_entries.mpr ⟨n, read, within, ?_⟩)
      rw [num]
      exact mem_entries_compare first mem_compare
    exact tracks.idx.symm.trans_lt access

/-- Every place of the trail is reached if all accesses are inside. -/
theorem trail_reached {start : Store}
    (inside : ∀ s, MountReach code drives path stack start s →
      ∀ a ∈ mountAccesses path s, a.Inside path.bytes.length)
    (trail : MountTrail code drives path stack start v r names i) :
    strlen (absolute names) < sizeofCurrpath ∧ ∃ p, p.node = r ∧ Tracks stack names p ∧
      MountReach code drives path stack start ⟨v, p, phaseAt i⟩ := by
  induction trail with
  | root => exact ⟨show 0 < 255 by decide, ⟨.firstNode, stack, 0⟩, rfl, Tracks.root stack _, .refl⟩
  | load _ left read isDir unloaded holds load ih =>
    obtain ⟨short, p, rfl, tracks, run⟩ := ih
    refine ⟨short, p, rfl, tracks, run.tail ?_⟩
    refine mountNext_top.mpr ⟨tracks.idx.trans_lt left, _, read, isDir, ?_⟩
    exact .inr ⟨unloaded, _, _, _, (tracks.string short).trans holds, load, rfl⟩
  | @enter v r n m names i j name _ read head within first named ih =>
    obtain ⟨short, p, rfl, tracks, run⟩ := ih
    have fit := namesFit_of_inside tracks short (inside _ run)
    obtain ⟨m₀, first₀⟩ := first.first
    have left : strlen (absolute names) < path.bytes.length := by
      cases i with
      | zero => exact (head rfl).1
      | succ i => exact fit.compare n m₀ i.succ_pos read within first₀
    obtain ⟨found, run⟩ : ∃ found, MountReach code drives path stack start ⟨v, p, .entries i found⟩ := by
      cases i with
      | zero =>
        refine ⟨false, run.tail (mountNext_top.mpr ⟨tracks.idx.trans_lt left, n, read, ?_, ?_⟩)⟩
        · exact (head rfl).2.1
        · exact .inl ⟨(head rfl).2.2, rfl⟩
      | succ i => exact ⟨true, run⟩
    have child := (findChild_differs left).mpr first
    rw [← tracks.idx] at child
    have fits : p.idx.toNat + 1 + strlen name < sizeofCurrpath := by
      refine enter_inside.mp fun a mem => inside _ run a ?_
      exact mem_mountAccesses_entries.mpr ⟨n, read, within, mem_entries_enter child named mem⟩
    obtain ⟨b, append⟩ := append_ok.mpr fits
    refine ⟨?_, _, rfl, tracks.enter append _, run.tail ?_⟩
    · rwa [strlen_snoc, ← tracks.idx]
    · exact mount_enters tracks read within left first named append
  | @again v r n names i _ entered read finished ih =>
    obtain ⟨short, p, rfl, tracks, run⟩ := ih
    have fit := namesFit_of_inside tracks short (inside _ run)
    obtain ⟨i, rfl⟩ := Nat.exists_eq_succ_of_ne_zero entered.ne'
    refine ⟨short, p, rfl, tracks, run.trans ?_⟩
    by_cases within : i + 1 < n.extDir.numDirs.toNat
    · have skipped := finished.resolve_left (not_le.mpr within)
      obtain ⟨m, first, _⟩ := skipped 0 (Nat.zero_lt_of_lt within)
      exact mount_again tracks read (fit.compare n m entered read within first) skipped _
    · exact .single ((mountNext_entries read).mpr (.inr ⟨not_lt.mp within, rfl, rfl⟩))

/-- A place of the walk on its trail. In the outer loop it may have gone on from the entry of the
last child without finding another. -/
inductive MountPlace (code : DriverCode) (drives : Drives) (path : CString) (stack : PathBuffer)
    (start : Store) : MountState → Prop
  | top {v : Store} {p : Position} {names : List CString} (tracks : Tracks stack names p)
      (trail : MountTrail code drives path stack start v p.node names 0) :
      MountPlace code drives path stack start ⟨v, p, .top⟩
  | entries {v : Store} {p : Position} {names : List CString} {i j : Nat} {found : Bool}
      (tracks : Tracks stack names p)
      (trail : MountTrail code drives path stack start v p.node names j) (le : j ≤ i)
      (flag : found = true → 0 < j)
      (head : j = 0 → strlen (absolute names) < path.bytes.length ∧
        ∀ n, v.read p.node = .ok n → n.has flagsIsDir ∧ n.has flagsLoaded)
      (closed : j = i ∨ ∀ n, v.read p.node = .ok n →
        AllSkipped v n.extDir (Begins path (strlen (absolute names)))) :
      MountPlace code drives path stack start ⟨v, p, .entries i found⟩

theorem left_of_fit {start : Store} (trail : MountTrail code drives path stack start v r names j)
    (fits : TrailFits code drives path stack start) (head : j = 0 → strlen (absolute names) < path.bytes.length)
    (read : v.read r = .ok n) (within : j < n.extDir.numDirs.toNat)
    (first : v.read (.entry n.extDir.files 0) = .ok m) : strlen (absolute names) < path.bytes.length := by
  cases j with
  | zero => exact head rfl
  | succ j => exact (fits v r names (j + 1) trail).compare n m j.succ_pos read within first

theorem MountPlace.step {start : Store} {s t : MountState}
    (place : MountPlace code drives path stack start s)
    (fits : TrailFits code drives path stack start)
    (step : MountNext code drives path s t) : MountPlace code drives path stack start t := by
  cases place with
  | @top v p names tracks trail =>
    obtain ⟨left, n, read, isDir, ⟨loaded, rfl⟩ | unloaded⟩ := mountNext_top.mp step
    · refine .entries tracks trail le_rfl nofun ?_ (.inl rfl)
      intro _
      refine ⟨tracks.idx ▸ left, ?_⟩
      intro n' read'
      cases read.symm.trans read'
      exact ⟨isDir, loaded⟩
    · obtain ⟨unloaded, string, v', calls, holds, load, rfl⟩ := unloaded
      have string := (tracks.string (fits v p.node names 0 trail).array).symm.trans holds
      exact .top tracks (trail.load (tracks.idx ▸ left) read isDir unloaded string load)
  | @entries v p names i j found tracks trail le flag head closed =>
    obtain ⟨n, read, _⟩ := bind_ok step
    obtain ⟨within, entry, child, rfl⟩ | ⟨finished, rfl, rfl⟩ := (mountNext_entries read).mp step
    · have within' : j < n.extDir.numDirs.toNat := le.trans_lt within
      rw [enterChild_eq] at child
      obtain ⟨m₀, first₀⟩ := enterFirst_read read child (Nat.zero_lt_of_lt within)
      have left := left_of_fit trail fits (fun zero => (head zero).1) read within' first₀
      rw [tracks.idx] at child
      cases entry with
      | some p' =>
        obtain ⟨l, m, name, b, picked, named, append, rfl⟩ := (enterFirst_some read).mp child
        have first := (findChild_differs left).mp picked
        obtain rfl | skipped := closed
        · refine .entries (tracks.enter append _) ?_ le_rfl (fun _ => Nat.succ_pos _) nofun (.inl rfl)
          refine trail.enter read ?_ within first named
          intro zero
          exact ⟨left, (head zero).2 n read⟩
        · exact absurd first (skipped n read).none
      | none =>
        have closed := (enterFirst_none read).mp child
        refine .entries tracks trail (le.trans i.le_succ) flag head (.inr ?_)
        intro n' read'
        cases read.symm.trans read'
        exact (findChild_begins left).mp closed
    · refine .top tracks (trail.again (flag rfl) read ?_)
      obtain rfl | skipped := closed
      · exact .inl finished
      · exact .inr (skipped n read)

theorem MountPlace.inside {start : Store} {s : MountState} {a : WalkAccess}
    (place : MountPlace code drives path stack start s)
    (fits : TrailFits code drives path stack start)
    (mem : a ∈ mountAccesses path s) : a.Inside path.bytes.length := by
  cases place with
  | @top v p names tracks trail =>
    have again := tracks.idx.trans_le ((fits v p.node names 0 trail).again rfl)
    obtain rfl | ⟨_, _, _, _, _, scan⟩ := mem_mountAccesses_top.mp mem
    · exact again
    · exact scan_inside again scan
  | @entries v p names i j found tracks trail le flag head closed =>
    obtain ⟨n, read, within, mem⟩ := mem_mountAccesses_entries.mp mem
    have within' : j < n.extDir.numDirs.toNat := le.trans_lt within
    obtain ⟨m₀, first₀⟩ := entries_read mem
    have left := left_of_fit trail fits (fun zero => (head zero).1) read within' first₀
    have short := (fits v p.node names j trail).array
    rw [tracks.idx] at mem
    refine entries_inside left short ?_ mem
    intro l m name picked named
    have first := (findChild_differs left).mp picked
    have next : MountTrail code drives path stack start v (.entry n.extDir.files l)
        (names ++ [name]) (j + 1) := by
      refine trail.enter read ?_ within' first named
      intro zero
      exact ⟨left, (head zero).2 n read⟩
    exact strlen_snoc ▸ (fits _ _ _ _ next).array

theorem mount_inside_iff (code : DriverCode) (drives : Drives) (stack : PathBuffer) (v : Store)
    (path : CString) : MountInside code drives stack v path ↔ MountFits code drives stack v path := by
  unfold MountInside MountFits
  rw [← strcmp_eq_false]
  constructor
  · rintro ⟨_, inside⟩
    refine or_iff_not_imp_left.mpr fun walks v' r names i trail => ?_
    have inside := inside (by simpa using walks)
    obtain ⟨short, p, rfl, tracks, run⟩ := trail_reached inside trail
    exact namesFit_of_inside tracks short (inside _ run)
  · intro fits
    refine ⟨Nat.zero_le _, fun walks s run => ?_⟩
    have fits := fits.resolve_left (by simpa using walks)
    have place : MountPlace code drives path stack v s := by
      induction run with
      | refl => exact .top (Tracks.root stack .firstNode) .root
      | tail _ step ih => exact ih.step fits step
    exact fun a => place.inside fits

def pathX : CString := ⟨[0x78], by decide⟩

def pathXb : CString := ⟨[0x78, 0x62], by decide⟩

end X86Os.Vfs
