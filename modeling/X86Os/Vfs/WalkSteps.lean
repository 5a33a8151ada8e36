import Mathlib.Logic.Relation
import X86Os.Vfs.Refusal

/-!
# The steps of the path walks and what they access

The rounds of `vfs_inspect` and `vfs_mount` as steps between states, each with the
places of `path` that it reads, the places of `currpath` that it writes and the
sum that it stores in the 8 bits of `currpathidx`. Every run of the loops is a run
of steps.
-/

namespace X86Os.Vfs

open Library.Memory Libc Relation
open Scheduler (bind_ok)
set_option autoImplicit false

/-- An index of `path` that is read, an index of `currpath` that is written, or the sum
that `currpathidx` should hold. -/
inductive WalkAccess
  | path (i : Nat)
  | currpath (i : Nat)
  | currpathidx (sum : Nat)
  deriving DecidableEq

/-- At most at the terminator of a path of this length, inside the array, and without a wrap. -/
def WalkAccess.Inside (length : Nat) : WalkAccess → Prop
  | path i => i ≤ length
  | currpath i => i < sizeofCurrpath
  | currpathidx sum => sum < 2 ^ 8

/-- The scan for the next slash, from index `i` of the path on. -/
def scanAccesses (path : CString) (i : Nat) : List WalkAccess :=
  (List.range (((path.bytes.drop i).takeWhile (· != 0x2F)).length + 1)).map fun k => .path (i + k)

/-- `strcmp(name, path + i)` takes the length of its second argument. -/
def compareAccesses (path : CString) (i : Nat) : List WalkAccess :=
  (List.range ((path.bytes.drop i).length + 1)).map fun k => .path (i + k)

def enterAccesses (idx : Nat) (name : CString) : List WalkAccess :=
  .currpath idx :: .currpathidx (idx + (strlen name + 1)) ::
    (List.range (strlen name + 1)).map fun k => .currpath (idx + 1 + k)

def inspectTest (path : CString) (idx : Nat) (name : Option CString) : Except Fault Bool := do
  let rest ← inBounds (path.drop (idx + 1))
  strncmpName name rest

def mountTest (path : CString) (idx : Nat) (name : Option CString) : Except Fault Bool := do
  return !(← inspectTest path idx name)

/-- The loop over the entries, up to the one that passes the test and is entered. -/
def entryAccesses (path : CString) (v : Store) (files : Word) (idx : Nat)
    (test : Option CString → Except Fault Bool) : Nat → Nat → List WalkAccess
  | 0, _ => []
  | more + 1, i =>
    match v.read (.entry files i) with
    | .error _ => []
    | .ok child =>
      compareAccesses path (idx + 1) ++
        match test child.name with
        | .ok true => child.name.elim [.currpath idx] (enterAccesses idx)
        | .ok false => entryAccesses path v files idx test more (i + 1)
        | .error _ => []

def childAccesses (path : CString) (v : Store) (p : Position)
    (test : Option CString → Except Fault Bool) : List WalkAccess :=
  match v.read p.node with
  | .error _ => []
  | .ok node => entryAccesses path v node.extDir.files p.idx.toNat test node.extDir.numDirs.toNat 0

def enterFirst (v : Store) (p : Position) (test : Option CString → Except Fault Bool) :
    Except Fault (Option Position) := do
  let node ← v.read p.node
  match ← findChild v node.extDir.files test node.extDir.numDirs.toNat 0 with
  | none => return none
  | some (i, child) =>
    let name ← deref child.name
    let currpath ← p.path.append p.idx.toNat name
    return some ⟨.entry node.extDir.files i, currpath, p.idx + BitVec.ofNat 8 (strlen name + 1)⟩

/-- The load at the head of the loop of `vfs_inspect`. -/
def openNode (code : DriverCode) (drives : Drives) (v : Store) (r : NodeRef)
    (currpath : Except Fault CString) : Except Fault Store := do
  let node ← v.read r
  if !node.has flagsLoaded && node.has flagsIsDir then
    let (v, _) ← vfsLoadContents code drives v r (← currpath)
    return v
  else return v

/-- One round of `vfs_inspect`; `none` where it returns. -/
def inspectStep (code : DriverCode) (drives : Drives) (path : CString) (v : Store) (p : Position) :
    Except Fault (Option (Store × Position)) := do
  let v ← openNode code drives v p.node p.path.string
  if (← inBounds (path.get p.idx.toNat)) = 0 then return none
  let node ← v.read p.node
  if !node.has flagsIsDir then return none
  match ← enterFirst v p (inspectTest path p.idx.toNat) with
  | none => return none
  | some p => return some (v, p)

/-- What the round reads and writes. The scan skips index 0 of the path. -/
def inspectAccesses (code : DriverCode) (drives : Drives) (path : CString) (v : Store) (p : Position) :
    List WalkAccess :=
  match openNode code drives v p.node p.path.string with
  | .error _ => []
  | .ok v =>
    .path p.idx.toNat :: match path.get p.idx.toNat, v.read p.node with
      | some b, .ok node =>
        if b = 0 ∨ !node.has flagsIsDir then []
        else scanAccesses path (max 1 p.idx.toNat) ++
          childAccesses path v p (inspectTest path p.idx.toNat)
      | _, _ => []

/-- At the head of the loop of `vfs_mount`, or in its outer loop over the entries. -/
inductive Phase
  | top
  | entries (i : Nat) (found : Bool)
  deriving DecidableEq

structure MountState where
  store : Store
  pos : Position
  phase : Phase

/-- One step of `vfs_mount`; `none` where its walk ends. -/
def mountStep (code : DriverCode) (drives : Drives) (path : CString) (s : MountState) :
    Except Fault (Option MountState) :=
  let ⟨v, p, phase⟩ := s
  match phase with
  | .top => do
    if (← inBounds (path.get p.idx.toNat)) = 0 then return none
    let node ← v.read p.node
    if !node.has flagsIsDir then return none
    if !node.has flagsLoaded then
      let (v, _) ← vfsLoadContents code drives v p.node (← p.path.string)
      return some ⟨v, p, .top⟩
    else return some ⟨v, p, .entries 0 false⟩
  | .entries i found => do
    let node ← v.read p.node
    if i < node.extDir.numDirs.toNat then
      match ← enterChild path v p with
      | some p => return some ⟨v, p, .entries (i + 1) true⟩
      | none => return some ⟨v, p, .entries (i + 1) found⟩
    else if found then return some ⟨v, p, .top⟩
    else return none

def mountAccesses (path : CString) (s : MountState) : List WalkAccess :=
  let ⟨v, p, phase⟩ := s
  match phase with
  | .top =>
    .path p.idx.toNat :: match path.get p.idx.toNat, v.read p.node with
      | some b, .ok node =>
        if b ≠ 0 ∧ node.has flagsIsDir ∧ node.has flagsLoaded then scanAccesses path p.idx.toNat else []
      | _, _ => []
  | .entries i _ =>
    match v.read p.node with
    | .error _ => []
    | .ok node =>
      if i < node.extDir.numDirs.toNat then childAccesses path v p (mountTest path p.idx.toNat) else []

def InspectNext (code : DriverCode) (drives : Drives) (path : CString) (s t : Store × Position) : Prop :=
  inspectStep code drives path s.1 s.2 = .ok (some t)

def MountNext (code : DriverCode) (drives : Drives) (path : CString) (s t : MountState) : Prop :=
  mountStep code drives path s = .ok (some t)

variable {code : DriverCode} {drives : Drives} {path : CString} {v v' : Store} {p p' : Position}
variable {fuel i j idx more : Nat} {found found' : Bool} {calls : List DriverCall} {files : Word}
variable {test : Option CString → Except Fault Bool} {n m : Node} {dir : ExtDir} {b : Byte}

theorem mountTest_bind : mountTest path idx = fun name => do
    let rest ← inBounds (path.drop (idx + 1))
    return !(← strncmpName name rest) := by
  funext name
  rw [mountTest, inspectTest]
  cases inBounds (path.drop (idx + 1)) <;> rfl

theorem enterChild_eq : enterChild path v p = enterFirst v p (mountTest path p.idx.toNat) := by
  rw [mountTest_bind]
  rfl

/-! ## The loops as runs of steps -/

theorem get_lt : (∃ b, path.get i = some b ∧ b ≠ 0) ↔ i < path.bytes.length := by
  constructor
  · rintro ⟨b, more, notEnd⟩
    rw [CString.get, Option.ite_none_right_eq_some] at more
    obtain ⟨inside, char⟩ := more
    refine lt_of_le_of_ne inside ?_
    rintro rfl
    rw [List.getElem?_eq_none le_rfl] at char
    exact notEnd (Option.some.inj char).symm
  · intro inside
    refine ⟨path.bytes[i], ?_, ?_⟩
    · rw [CString.get, if_pos inside.le, List.getElem?_eq_getElem inside, Option.getD_some]
    · intro zero
      exact path.terminated (zero ▸ List.getElem_mem inside)

/-- What a round of the loop does: it returns, or it goes on as the step says. -/
def RoundStep (code : DriverCode) (drives : Drives) (path : CString) (fuel : Nat) (v : Store)
    (p : Position) (found : Lookup) : Prop :=
  (inspectStep code drives path v p = .ok none ∧ (found.node = none ∨ found.node = some p.node)) ∨
  ∃ v' p' calls', inspectStep code drives path v p = .ok (some (v', p')) ∧
    inspectLoop code drives path fuel v' p'.node p'.path p'.idx calls' = .ok found

/-- The rest of a round, behind the load. -/
theorem inspectRest_cases {found : Lookup} (opened : openNode code drives v p.node p.path.string = .ok v')
    (walked : (show Except Fault Lookup from do
      if (← inBounds (path.get p.idx.toNat)) = 0 then return ⟨some p.node, v', calls⟩
      let node ← v'.read p.node
      if !node.has flagsIsDir then return ⟨none, v', calls⟩
      let rest ← inBounds (path.drop (p.idx.toNat + 1))
      match ← findChild v' node.extDir.files (strncmpName · rest) node.extDir.numDirs.toNat 0 with
      | none => return ⟨none, v', calls⟩
      | some (i, child) =>
        let name ← deref child.name
        let currpath ← p.path.append p.idx.toNat name
        inspectLoop code drives path fuel v' (.entry node.extDir.files i) currpath
          (p.idx + BitVec.ofNat 8 (strlen name + 1)) calls) = .ok found) :
    (inspectStep code drives path v p = .ok none ∧ found.store = v' ∧
      (found.node = none ∨ found.node = some p.node)) ∨
    ∃ p' calls', inspectStep code drives path v p = .ok (some (v', p')) ∧
      inspectLoop code drives path fuel v' p'.node p'.path p'.idx calls' = .ok found := by
  obtain ⟨b, more, walked⟩ := bind_ok walked
  rw [inspectStep, opened, ok_bind, more, ok_bind]
  split at walked
  next finished =>
    cases walked
    exact .inl ⟨if_pos finished, rfl, .inr rfl⟩
  next notEnd =>
    rw [if_neg notEnd]
    obtain ⟨node, read, walked⟩ := bind_ok walked
    rw [read, ok_bind]
    split at walked
    next file =>
      cases walked
      exact .inl ⟨if_pos file, rfl, .inl rfl⟩
    next isDir =>
      rw [if_neg isDir]
      obtain ⟨rest, drop, walked⟩ := bind_ok walked
      obtain ⟨entry, child, walked⟩ := bind_ok walked
      have test : inspectTest path p.idx.toNat = (strncmpName · rest) := by
        funext name
        rw [inspectTest, drop, ok_bind]
      simp only [enterFirst, read, test, child, ok_bind]
      cases entry with
      | none =>
        cases walked
        exact .inl ⟨rfl, rfl, .inl rfl⟩
      | some entry =>
        obtain ⟨i, child⟩ := entry
        obtain ⟨name, named, walked⟩ := bind_ok walked
        obtain ⟨currpath, append, walked⟩ := bind_ok walked
        simp only [named, append, ok_bind]
        exact .inr ⟨⟨_, currpath, _⟩, calls, rfl, walked⟩

theorem inspectLoop_opened {found : Lookup}
    (walked : inspectLoop code drives path (fuel + 1) v p.node p.path p.idx calls = .ok found) :
    ∃ v', openNode code drives v p.node p.path.string = .ok v' ∧
      ((inspectStep code drives path v p = .ok none ∧ found.store = v' ∧
        (found.node = none ∨ found.node = some p.node)) ∨
      ∃ p' calls', inspectStep code drives path v p = .ok (some (v', p')) ∧
        inspectLoop code drives path fuel v' p'.node p'.path p'.idx calls' = .ok found) := by
  rw [inspectLoop] at walked
  obtain ⟨node, read, walked⟩ := bind_ok walked
  dsimp only at walked
  split at walked
  next load =>
    obtain ⟨string, currpath, walked⟩ := bind_ok walked
    obtain ⟨⟨v', more⟩, contents, walked⟩ := bind_ok walked
    have opened : openNode code drives v p.node p.path.string = .ok v' := by
      simp only [openNode, read, ok_bind, if_pos load, currpath, contents]
      rfl
    exact ⟨v', opened, inspectRest_cases opened walked⟩
  next noLoad =>
    have opened : openNode code drives v p.node p.path.string = .ok v := by
      simp only [openNode, read, ok_bind, if_neg noLoad]
      rfl
    exact ⟨v, opened, inspectRest_cases opened walked⟩

theorem inspectLoop_round {found : Lookup}
    (walked : inspectLoop code drives path (fuel + 1) v p.node p.path p.idx calls = .ok found) :
    RoundStep code drives path fuel v p found := by
  obtain ⟨v', _, ⟨stop, _, node⟩ | ⟨p', calls', step, rest⟩⟩ := inspectLoop_opened walked
  · exact .inl ⟨stop, node⟩
  · exact .inr ⟨v', p', calls', step, rest⟩

/-- A lookup that returns is a run of the steps to where it stops. -/
theorem inspectLoop_run {found : Lookup}
    (walked : inspectLoop code drives path fuel v p.node p.path p.idx calls = .ok found) :
    ∃ v' p', ReflTransGen (InspectNext code drives path) (v, p) (v', p') ∧
      inspectStep code drives path v' p' = .ok none ∧
      (found.node = none ∨ found.node = some p'.node) := by
  induction fuel generalizing v p calls with
  | zero => cases walked
  | succ fuel ih =>
    obtain ⟨stop, node⟩ | ⟨v', p', calls', step, rest⟩ := inspectLoop_round walked
    · exact ⟨v, p, .refl, stop, node⟩
    · obtain ⟨v'', p'', run, stops⟩ := ih rest
      exact ⟨v'', p'', .head step run, stops⟩

theorem inspectNext_iff {t : Store × Position} : InspectNext code drives path (v, p) t ↔
    p.idx.toNat < path.bytes.length ∧ openNode code drives v p.node p.path.string = .ok t.1 ∧
      ∃ n, t.1.read p.node = .ok n ∧ n.has flagsIsDir ∧
        enterFirst t.1 p (inspectTest path p.idx.toNat) = .ok (some t.2) := by
  rw [← get_lt]
  constructor
  · intro step
    obtain ⟨v', opened, step⟩ := bind_ok step
    obtain ⟨b, more, step⟩ := bind_ok step
    split at step
    next => cases step
    next notEnd =>
      obtain ⟨n, read, step⟩ := bind_ok step
      split at step
      next => cases step
      next isDir =>
        obtain ⟨entry, entered, step⟩ := bind_ok step
        cases entry with
        | none => cases step
        | some p' =>
          cases step
          exact ⟨⟨b, inBounds_some more, notEnd⟩, opened, n, read, by simpa using isDir, entered⟩
  · rintro ⟨⟨b, more, notEnd⟩, opened, n, read, isDir, entered⟩
    simp only [InspectNext, inspectStep, opened, ok_bind, more, inBounds_ok, if_neg notEnd, read, isDir,
      entered]
    rfl

theorem mountNext_top {t : MountState} : MountNext code drives path ⟨v, p, .top⟩ t ↔
    p.idx.toNat < path.bytes.length ∧ ∃ n, v.read p.node = .ok n ∧ n.has flagsIsDir ∧
      (n.has flagsLoaded ∧ t = ⟨v, p, .entries 0 false⟩ ∨
        ¬ n.has flagsLoaded ∧ ∃ string v' calls, p.path.string = .ok string ∧
          vfsLoadContents code drives v p.node string = .ok (v', calls) ∧ t = ⟨v', p, .top⟩) := by
  rw [← get_lt]
  constructor
  · intro step
    obtain ⟨b, more, step⟩ := bind_ok step
    split at step
    next => cases step
    next notEnd =>
      obtain ⟨n, read, step⟩ := bind_ok step
      split at step
      next => cases step
      next isDir =>
        refine ⟨⟨b, inBounds_some more, notEnd⟩, n, read, by simpa using isDir, ?_⟩
        split at step
        next unloaded =>
          obtain ⟨string, currpath, step⟩ := bind_ok step
          obtain ⟨⟨v', calls⟩, load, step⟩ := bind_ok step
          cases step
          exact .inr ⟨by simpa using unloaded, string, v', calls, currpath, load, rfl⟩
        next loaded =>
          cases step
          exact .inl ⟨by simpa using loaded, rfl⟩
  · rintro ⟨⟨b, more, notEnd⟩, n, read, isDir,
      ⟨loaded, rfl⟩ | ⟨unloaded, string, v', calls, currpath, load, rfl⟩⟩
    · simp only [MountNext, mountStep, more, inBounds_ok, ok_bind, if_neg notEnd, read, isDir, loaded]
      rfl
    · simp only [MountNext, mountStep, more, inBounds_ok, ok_bind, if_neg notEnd, read, isDir, unloaded,
        currpath, load]
      rfl

theorem mountNext_entries {t : MountState} (read : v.read p.node = .ok n) :
    MountNext code drives path ⟨v, p, .entries i found⟩ t ↔
      (i < n.extDir.numDirs.toNat ∧ ∃ entry, enterChild path v p = .ok entry ∧
        t = entry.elim ⟨v, p, .entries (i + 1) found⟩ (⟨v, ·, .entries (i + 1) true⟩)) ∨
      (n.extDir.numDirs.toNat ≤ i ∧ found = true ∧ t = ⟨v, p, .top⟩) := by
  simp only [MountNext, mountStep, read, ok_bind]
  by_cases inside : i < n.extDir.numDirs.toNat
  · rw [if_pos inside]
    constructor
    · intro step
      obtain ⟨entry, child, step⟩ := bind_ok step
      refine .inl ⟨inside, entry, child, ?_⟩
      cases entry with
      | none =>
        cases step
        rfl
      | some p' =>
        cases step
        rfl
    · rintro (⟨_, entry, child, rfl⟩ | ⟨finished, _⟩)
      · rw [child]
        cases entry <;> rfl
      · exact absurd inside (not_lt.mpr finished)
  · rw [if_neg inside]
    constructor
    · intro step
      split at step
      next enter =>
        cases step
        exact .inr ⟨not_lt.mp inside, enter, rfl⟩
      next => cases step
    · rintro (⟨within, _⟩ | ⟨_, rfl, rfl⟩)
      · exact absurd within inside
      · rfl

theorem enterChildren_run (entered : enterChildren path v fuel i p found = .ok (p', found')) :
    ∃ i', ReflTransGen (MountNext code drives path) ⟨v, p, .entries i found⟩ ⟨v, p', .entries i' found'⟩ ∧
      ∃ n, v.read p'.node = .ok n ∧ n.extDir.numDirs.toNat ≤ i' := by
  induction fuel generalizing i p found with
  | zero => cases entered
  | succ fuel ih =>
    rw [enterChildren] at entered
    obtain ⟨n, read, entered⟩ := bind_ok entered
    split at entered
    next inside =>
      obtain ⟨entry, child, entered⟩ := bind_ok entered
      have step : MountNext code drives path ⟨v, p, .entries i found⟩ _ :=
        (mountNext_entries read).mpr (.inl ⟨inside, entry, child, rfl⟩)
      cases entry with
      | some p =>
        obtain ⟨i', run, finished⟩ := ih entered
        exact ⟨i', .head step run, finished⟩
      | none =>
        obtain ⟨i', run, finished⟩ := ih entered
        exact ⟨i', .head step run, finished⟩
    next outside =>
      cases entered
      exact ⟨i, .refl, n, read, not_lt.mp outside⟩

/-- A walk of `vfs_mount` that ends is a run of the steps, too. -/
theorem mountLoop_run {last : Lookup} (walked : mountLoop code drives path fuel v p calls = .ok last) :
    ∃ s, ReflTransGen (MountNext code drives path) ⟨v, p, .top⟩ s ∧
      mountStep code drives path s = .ok none ∧ (last.node = none ∨ last.node = some s.pos.node) := by
  induction fuel generalizing v p calls with
  | zero => cases walked
  | succ fuel ih =>
    cases mountLoop_round walked with
    | ended more same =>
      refine ⟨⟨v, p, .top⟩, .refl, ?_, .inr (congrArg Lookup.node same)⟩
      simp only [mountStep, more, inBounds_ok, ok_bind]
      rfl
    | file more notEnd read notDir same =>
      refine ⟨⟨v, p, .top⟩, .refl, ?_, .inl (congrArg Lookup.node same)⟩
      simp only [mountStep, more, inBounds_ok, ok_bind, if_neg notEnd, read, notDir]
      rfl
    | load more notEnd read isDir unloaded string load rest =>
      obtain ⟨s, run, stop⟩ := ih rest
      refine ⟨s, .head (mountNext_top.mpr ⟨get_lt.mp ⟨_, more, notEnd⟩, _, read, isDir, ?_⟩) run, stop⟩
      exact .inr ⟨unloaded, _, _, _, string, load, rfl⟩
    | @enter _ _ p' entered more notEnd read isDir loaded children rest =>
      have begins : MountNext code drives path ⟨v, p, .top⟩ _ :=
        mountNext_top.mpr ⟨get_lt.mp ⟨_, more, notEnd⟩, _, read, isDir, .inl ⟨loaded, rfl⟩⟩
      obtain ⟨i, run, n, read', finished⟩ := enterChildren_run children
      cases entered with
      | false =>
        cases rest
        refine ⟨_, .head begins run, ?_, .inl rfl⟩
        simp only [mountStep, read', ok_bind, if_neg (not_lt.mpr finished)]
        rfl
      | true =>
        obtain ⟨s, walk, stop⟩ := ih rest
        have again : MountNext code drives path ⟨v, p', .entries i true⟩ _ :=
          (mountNext_entries read').mpr (.inr ⟨finished, rfl, rfl⟩)
        exact ⟨s, .head begins (run.trans (.head again walk)), stop⟩

/-! ## The loop over the entries -/

theorem findChild_some : findChild v files test more i = .ok (some (j, m)) ↔
    (i ≤ j ∧ j < i + more) ∧ v.read (.entry files j) = .ok m ∧ test m.name = .ok true ∧
      ∀ k, i ≤ k → k < j → ∃ n, v.read (.entry files k) = .ok n ∧ test n.name = .ok false := by
  induction more generalizing i with
  | zero =>
    constructor
    · nofun
    · rintro ⟨place, _⟩
      omega
  | succ more ih =>
    rw [findChild]
    constructor
    · intro found
      obtain ⟨child, read, found⟩ := bind_ok found
      obtain ⟨passes, tested, found⟩ := bind_ok found
      cases passes with
      | true =>
        cases found
        exact ⟨by omega, read, tested, by omega⟩
      | false =>
        obtain ⟨place, read', tested', before⟩ := ih.mp found
        refine ⟨by omega, read', tested', ?_⟩
        intro k le lt
        obtain rfl | later := le.eq_or_lt
        · exact ⟨child, read, tested⟩
        · exact before k later lt
    · rintro ⟨place, read, tested, before⟩
      obtain rfl | later := place.1.eq_or_lt
      · rw [read, ok_bind, tested]
        rfl
      · obtain ⟨n, read', tested'⟩ := before i le_rfl later
        rw [read', ok_bind, tested', ok_bind]
        exact ih.mpr ⟨by omega, read, tested, fun k le => before k (Nat.le_of_succ_le le)⟩

theorem findChild_read {entry : Option (Nat × Node)} (found : findChild v files test more i = .ok entry)
    (some : 0 < more) : ∃ m, v.read (.entry files i) = .ok m := by
  obtain ⟨more, rfl⟩ := Nat.exists_eq_add_of_lt some
  obtain ⟨child, read, _⟩ := bind_ok found
  exact ⟨child, read⟩

theorem findChild_none : findChild v files test more i = .ok none ↔
    ∀ k, i ≤ k → k < i + more → ∃ n, v.read (.entry files k) = .ok n ∧ test n.name = .ok false := by
  induction more generalizing i with
  | zero =>
    refine iff_of_true rfl ?_
    omega
  | succ more ih =>
    rw [findChild]
    constructor
    · intro closed
      obtain ⟨child, read, closed⟩ := bind_ok closed
      obtain ⟨passes, tested, closed⟩ := bind_ok closed
      cases passes with
      | true => cases closed
      | false =>
        intro k le lt
        obtain rfl | later := le.eq_or_lt
        · exact ⟨child, read, tested⟩
        · exact ih.mp closed k later (by omega)
    · intro all
      obtain ⟨n, read, tested⟩ := all i le_rfl (by omega)
      rw [read, ok_bind, tested, ok_bind]
      exact ih.mpr fun k le lt => all k (Nat.le_of_succ_le le) (by omega)

theorem enterFirst_some (read : v.read p.node = .ok n) :
    enterFirst v p test = .ok (some p') ↔ ∃ i m name currpath,
      findChild v n.extDir.files test n.extDir.numDirs.toNat 0 = .ok (some (i, m)) ∧
        m.name = some name ∧ p.path.append p.idx.toNat name = .ok currpath ∧
        p' = ⟨.entry n.extDir.files i, currpath, p.idx + BitVec.ofNat 8 (strlen name + 1)⟩ := by
  simp only [enterFirst, read, ok_bind]
  constructor
  · intro entered
    obtain ⟨entry, child, entered⟩ := bind_ok entered
    cases entry with
    | none => cases entered
    | some entry =>
      obtain ⟨i, m⟩ := entry
      obtain ⟨name, named, entered⟩ := bind_ok entered
      obtain ⟨currpath, append, entered⟩ := bind_ok entered
      cases entered
      cases given : m.name with
      | none =>
        rw [given] at named
        cases named
      | some name' =>
        rw [given] at named
        cases named
        exact ⟨i, m, name, currpath, child, given, append, rfl⟩
  · rintro ⟨i, m, name, currpath, child, named, append, rfl⟩
    simp only [child, ok_bind, named, deref_ok, append]
    rfl

theorem enterFirst_read {entry : Option Position} (read : v.read p.node = .ok n)
    (entered : enterFirst v p test = .ok entry) (some : 0 < n.extDir.numDirs.toNat) :
    ∃ m, v.read (.entry n.extDir.files 0) = .ok m := by
  simp only [enterFirst, read, ok_bind] at entered
  obtain ⟨found, child, _⟩ := bind_ok entered
  exact findChild_read child some

theorem enterFirst_none (read : v.read p.node = .ok n) : enterFirst v p test = .ok none ↔
    findChild v n.extDir.files test n.extDir.numDirs.toNat 0 = .ok none := by
  simp only [enterFirst, read, ok_bind]
  constructor
  · intro closed
    obtain ⟨entry, child, closed⟩ := bind_ok closed
    cases entry with
    | none => exact child
    | some entry =>
      obtain ⟨name, _, closed⟩ := bind_ok closed
      obtain ⟨currpath, _, closed⟩ := bind_ok closed
      cases closed
  · intro closed
    rw [closed]
    rfl

/-! ## The accesses -/

theorem scan_inside {a : WalkAccess} (place : i ≤ path.bytes.length)
    (mem : a ∈ scanAccesses path i) : a.Inside path.bytes.length := by
  obtain ⟨k, le, rfl⟩ := List.mem_map.mp mem
  have shorter := (List.takeWhile_sublist (· != 0x2F) (l := path.bytes.drop i)).length_le
  rw [List.length_drop] at shorter
  have := List.mem_range.mp le
  change i + k ≤ path.bytes.length
  omega

theorem compare_inside {a : WalkAccess} (place : i ≤ path.bytes.length)
    (mem : a ∈ compareAccesses path i) : a.Inside path.bytes.length := by
  obtain ⟨k, le, rfl⟩ := List.mem_map.mp mem
  have := List.mem_range.mp le
  rw [List.length_drop] at this
  change i + k ≤ path.bytes.length
  omega

theorem mem_compare : .path i ∈ compareAccesses path i :=
  List.mem_map.mpr ⟨0, by simp, rfl⟩

theorem enter_inside {length : Nat} {name : CString} :
    (∀ a ∈ enterAccesses idx name, a.Inside length) ↔ idx + 1 + strlen name < sizeofCurrpath := by
  constructor
  · intro inside
    refine inside (.currpath (idx + 1 + strlen name)) ?_
    simp [enterAccesses]
  · intro short a mem
    have size : sizeofCurrpath = 255 := rfl
    simp only [enterAccesses, List.mem_cons, List.mem_map, List.mem_range] at mem
    obtain rfl | rfl | ⟨k, le, rfl⟩ := mem
    · change idx < sizeofCurrpath
      omega
    · change idx + (strlen name + 1) < 2 ^ 8
      omega
    · change idx + 1 + k < sizeofCurrpath
      omega

theorem childAccesses_eq (read : v.read p.node = .ok n) : childAccesses path v p test =
    entryAccesses path v n.extDir.files p.idx.toNat test n.extDir.numDirs.toNat 0 := by
  rw [childAccesses, read]

theorem mem_inspectAccesses {a : WalkAccess} : a ∈ inspectAccesses code drives path v p ↔
    ∃ v', openNode code drives v p.node p.path.string = .ok v' ∧ (a = .path p.idx.toNat ∨
      p.idx.toNat < path.bytes.length ∧ ∃ n, v'.read p.node = .ok n ∧ n.has flagsIsDir ∧
        (a ∈ scanAccesses path (max 1 p.idx.toNat) ∨
          a ∈ childAccesses path v' p (inspectTest path p.idx.toNat))) := by
  rw [inspectAccesses, ← get_lt]
  cases opened : openNode code drives v p.node p.path.string with
  | error e => simp
  | ok v' =>
    simp only [List.mem_cons, Except.ok.injEq, exists_eq_left']
    refine or_congr_right ?_
    split
    next b n more read =>
      rw [more, read]
      by_cases zero : b = 0 <;> by_cases isDir : n.has flagsIsDir <;> simp [zero, isDir]
    next none =>
      refine iff_of_false (by simp) ?_
      rintro ⟨⟨b, more, _⟩, n, read, _⟩
      exact none b n more read

theorem mem_mountAccesses_top {a : WalkAccess} : a ∈ mountAccesses path ⟨v, p, .top⟩ ↔
    a = .path p.idx.toNat ∨ p.idx.toNat < path.bytes.length ∧ ∃ n, v.read p.node = .ok n ∧
      n.has flagsIsDir ∧ n.has flagsLoaded ∧ a ∈ scanAccesses path p.idx.toNat := by
  simp only [mountAccesses, List.mem_cons]
  rw [← get_lt]
  refine or_congr_right ?_
  split
  next b n more read =>
    rw [more, read]
    by_cases finished : b = 0 <;> by_cases isDir : n.has flagsIsDir <;>
      by_cases loaded : n.has flagsLoaded <;> simp [finished, isDir, loaded]
  next none =>
    refine iff_of_false (by simp) ?_
    rintro ⟨⟨b, more, _⟩, n, read, _⟩
    exact none b n more read

theorem mem_mountAccesses_entries {a : WalkAccess} : a ∈ mountAccesses path ⟨v, p, .entries i found⟩ ↔
    ∃ n, v.read p.node = .ok n ∧ i < n.extDir.numDirs.toNat ∧
      a ∈ entryAccesses path v n.extDir.files p.idx.toNat (mountTest path p.idx.toNat)
        n.extDir.numDirs.toNat 0 := by
  rw [mountAccesses]
  constructor
  · intro mem
    split at mem
    next => cases mem
    next n read =>
      split at mem
      next inside => exact ⟨n, read, inside, childAccesses_eq read ▸ mem⟩
      next => cases mem
  · rintro ⟨n, read, inside, mem⟩
    simp only [read, if_pos inside, childAccesses_eq read]
    exact mem

/-- The loop over the entries keeps inside if the place behind the index belongs to the path and
the name that is entered fits. -/
theorem entries_inside {a : WalkAccess} (place : idx + 1 ≤ path.bytes.length) (start : idx < sizeofCurrpath)
    (fits : ∀ j m name, findChild v files test more i = .ok (some (j, m)) → m.name = some name →
      idx + 1 + strlen name < sizeofCurrpath)
    (mem : a ∈ entryAccesses path v files idx test more i) : a.Inside path.bytes.length := by
  induction more generalizing i with
  | zero => cases mem
  | succ more ih =>
    rw [entryAccesses] at mem
    split at mem
    next => cases mem
    next child read =>
      obtain compare | mem := List.mem_append.mp mem
      · exact compare_inside place compare
      · split at mem
        next passes =>
          cases named : child.name with
          | none =>
            rw [named] at mem
            obtain rfl := List.mem_singleton.mp mem
            exact start
          | some name =>
            rw [named] at mem
            refine enter_inside.mpr (fits i child name ?_ named) a mem
            rw [findChild, read, ok_bind, passes]
            rfl
        next fails =>
          refine ih ?_ mem
          intro j m name found
          refine fits j m name ?_
          rwa [findChild, read, ok_bind, fails]
        next => cases mem

theorem mem_entries_compare {a : WalkAccess} (read : v.read (.entry files i) = .ok m)
    (mem : a ∈ compareAccesses path (idx + 1)) :
    a ∈ entryAccesses path v files idx test (more + 1) i := by
  rw [entryAccesses, read]
  exact List.mem_append_left _ mem

theorem entries_read {a : WalkAccess} (mem : a ∈ entryAccesses path v files idx test more i) :
    ∃ m, v.read (.entry files i) = .ok m := by
  cases more with
  | zero => cases mem
  | succ more =>
    rw [entryAccesses] at mem
    split at mem
    next => cases mem
    next child read => exact ⟨child, read⟩

theorem mem_entries_enter {a : WalkAccess} {name : CString}
    (found : findChild v files test more i = .ok (some (j, m))) (named : m.name = some name)
    (mem : a ∈ enterAccesses idx name) : a ∈ entryAccesses path v files idx test more i := by
  induction more generalizing i with
  | zero => cases found
  | succ more ih =>
    rw [findChild] at found
    obtain ⟨child, read, found⟩ := bind_ok found
    obtain ⟨passes, tested, found⟩ := bind_ok found
    rw [entryAccesses, read]
    refine List.mem_append_right _ ?_
    cases passes with
    | true =>
      cases found
      rw [tested, named]
      exact mem
    | false =>
      rw [tested]
      exact ih found

end X86Os.Vfs
