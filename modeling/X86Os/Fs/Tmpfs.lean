import X86Os.Vfs.Lookup

/-!
# The memory file system of base/fs/tmpfs.cpp

Every allocation of a `tmpfs_node` succeeds with a block of its own, so nodes are
named by the order of their allocation; the root is node 0. A path is the block
that `strdup` fills, which has no room for a terminator, and `strcmp` may read on
behind it. The kernel has no memory protection: a copy that leaves its source
block finds whatever is there.
-/

namespace X86Os.Fs

open Library.Memory Libc Vfs
set_option autoImplicit false

structure TmpfsNode where
  next : Option Nat
  prev : Option Nat
  isDir : Bool
  path : List Byte
  data : Option (List Byte)
  len : Word
  deriving DecidableEq

/-- What `memset(node, 0, sizeof(tmpfs_node))` leaves, but for the path. -/
def newNode (path : List Byte) : TmpfsNode := ⟨none, none, false, path, none, 0⟩

abbrev Tmpfs := List TmpfsNode

/-- What memory outside the blocks holds during a call. -/
structure Surroundings where
  behindPath : Nat → Nat → Byte
  garbage : Nat → Byte
  bufferSize : BitVec 64

def strcmpPath (env : Surroundings) (i : Nat) (node : TmpfsNode) (path : CString) : Bool :=
  differ (node.path ++ (List.range (strlen path)).map (env.behindPath i)) path.bytes

def findFrom (env : Surroundings) (fs : Tmpfs) (path : CString) :
    Nat → Option Nat → Except Fault (Option Nat)
  | _, none => .ok none
  | 0, some _ => .error .loops
  | fuel + 1, some i => do
    let node ← inBounds fs[i]?
    if strcmpPath env i node path = false then return some i
    findFrom env fs path fuel node.next

/-- A walk longer than the number of nodes never ends. -/
def tmpfsFindNode (env : Surroundings) (fs : Tmpfs) (path : CString) : Except Fault (Option Nat) :=
  findFrom env fs path fs.length (some 0)

def insertFrom (n : Nat) (fs : Tmpfs) : Nat → Nat → Except Fault Tmpfs
  | 0, _ => .error .loops
  | fuel + 1, i => do
    let node ← inBounds fs[i]?
    match node.next with
    | none => return (fs.set i { node with next := some n }).modify n fun x => { x with prev := some i }
    | some j => insertFrom n fs fuel j

def tmpfsInsert (fs : Tmpfs) (n : Nat) : Except Fault Tmpfs := insertFrom n fs fs.length 0

/-- `memcpy` to a new block of `n` bytes; its third parameter is an `int`. -/
def memcpyNew (env : Surroundings) (src : List Byte) (off n : Nat) : Except Fault (List Byte) :=
  if n < 2 ^ 31 then .ok ((List.range n).map fun k => src[off + k]?.getD (env.garbage (off + k)))
  else .error .outOfBounds

def memcpyInto (data : List Byte) (off : Nat) (buf : List Byte) : Except Fault (List Byte) :=
  if buf.length < 2 ^ 31 ∧ off + buf.length ≤ data.length then
    .ok (data.take off ++ buf ++ data.drop (off + buf.length))
  else .error .outOfBounds

/-- `node->file.data = malloc(1)` for a file without length. -/
def firstBlock (env : Surroundings) (node : TmpfsNode) : TmpfsNode :=
  if node.len = 0 then { node with data := some [env.garbage 0] } else node

def extend (env : Surroundings) (stop : Nat) (node : TmpfsNode) : Except Fault TmpfsNode :=
  if node.len.toNat < stop then do
    let dn ← memcpyNew env (← deref node.data) 0 stop
    return { node with data := some dn }
  else .ok node

/-- `tmpfs_write` behind the lookup of the node. `off` has 32 bits and `len` has 64. -/
def storeFile (env : Surroundings) (off : Word) (buf : List Byte) (node : TmpfsNode) :
    Except Fault TmpfsNode := do
  let node ← extend env (off.toNat + buf.length) (firstBlock env node)
  let data ← memcpyInto (← deref node.data) off.toNat buf
  return { node with data := some data }

def findOrCreate (env : Surroundings) (fs : Tmpfs) (path : CString) :
    Except Fault (Tmpfs × Nat) := do
  match ← tmpfsFindNode env fs path with
  | some i => return (fs, i)
  | none => return (← tmpfsInsert (fs ++ [newNode path.bytes]) fs.length, fs.length)

/-- The C function returns no value. -/
def tmpfsWrite (env : Surroundings) (fs : Tmpfs) (path : CString) (off : Word) (buf : List Byte) :
    Except Fault Tmpfs := do
  let (fs, i) ← findOrCreate env fs path
  let node ← storeFile env off buf (← inBounds fs[i]?)
  return fs.set i node

/-- The bytes and the size field of the buffer, which nobody fills; nothing where the C
function ends without a value. -/
def tmpfsRead (env : Surroundings) (fs : Tmpfs) (path : CString) (offset size : Word) :
    Except Fault (Option (List Byte × BitVec 64)) := do
  match ← tmpfsFindNode env fs path with
  | none => return none
  | some i =>
    let node ← inBounds fs[i]?
    if offset > node.len then return none
    if node.isDir then return none
    let data ← memcpyNew env (← deref node.data) offset.toNat size.toNat
    return some (data, env.bufferSize)

/-- The root has the literal `""` as its path. -/
def tmpfsInit : Tmpfs := [{ newNode [0] with isDir := true }]

/-- Nodes hang together in the order of their allocation. -/
structure Linked (fs : Tmpfs) : Prop where
  root : 0 < fs.length
  next : ∀ i n, fs[i]? = some n → n.next = if i + 1 < fs.length then some (i + 1) else none
  prev : ∀ i n, fs[i]? = some n → n.prev = if i = 0 then none else some (i - 1)

variable {env : Surroundings} {fs fs' : Tmpfs} {path : CString} {n n' : TmpfsNode} {i fuel : Nat}

theorem inBounds_get (inside : i < fs.length) : ∃ n, fs[i]? = some n :=
  ⟨fs[i], List.getElem?_eq_getElem inside⟩

def Matches (env : Surroundings) (fs : Tmpfs) (path : CString) (i : Nat) : Prop :=
  ∃ n, fs[i]? = some n ∧ strcmpPath env i n path = false

theorem matches_iff (here : fs[i]? = some n) :
    Matches env fs path i ↔ strcmpPath env i n path = false := by
  constructor
  · rintro ⟨m, here', same⟩
    rwa [Option.some.inj (here.symm.trans here')]
  · intro same
    exact ⟨n, here, same⟩

theorem Matches.inside (found : Matches env fs path i) : i < fs.length := by
  obtain ⟨n, here, _⟩ := found
  exact (List.getElem?_eq_some_iff.mp here).1

def FirstMatch (env : Surroundings) (fs : Tmpfs) (path : CString) (i : Nat) : Option Nat → Prop
  | some k => Matches env fs path k ∧ ∀ j, i ≤ j → j < k → ¬ Matches env fs path j
  | none => ∀ j, i ≤ j → ¬ Matches env fs path j

theorem findFrom_first (linked : Linked fs) (inside : i < fs.length)
    (enough : fs.length ≤ i + fuel) :
    ∃ r, findFrom env fs path fuel (some i) = .ok r ∧ FirstMatch env fs path i r := by
  induction fuel generalizing i with
  | zero => omega
  | succ fuel ih =>
    obtain ⟨n, here⟩ := inBounds_get inside
    rw [findFrom, here]
    cases same : strcmpPath env i n path with
    | false => exact ⟨some i, if_pos same, ⟨n, here, same⟩, by omega⟩
    | true =>
      have other : ¬ strcmpPath env i n path = false := by
        rw [same]
        exact Bool.noConfusion
      have passed : ¬ Matches env fs path i := (matches_iff here).not.mpr other
      obtain more | last := Nat.lt_or_ge (i + 1) fs.length
      · obtain ⟨r, found, first⟩ := ih more (by omega)
        refine ⟨r, (if_neg other).trans ?_, ?_⟩
        · rw [linked.next i n here, if_pos more, found]
        · have skip : ∀ j, i ≤ j → (i + 1 ≤ j → ¬ Matches env fs path j) → ¬ Matches env fs path j := by
            intro j le behind
            obtain rfl | after := Nat.eq_or_lt_of_le le
            · exact passed
            · exact behind after
          cases r with
          | some k => exact ⟨first.1, fun j le before => skip j le fun after => first.2 j after before⟩
          | none => exact fun j le => skip j le fun after => first j after
      · refine ⟨none, (if_neg other).trans ?_, ?_⟩
        · rw [linked.next i n here, if_neg (by omega), findFrom]
        · intro j le found
          have bound := found.inside
          obtain rfl : i = j := by omega
          exact passed found

theorem find_first (env : Surroundings) (path : CString) (linked : Linked fs) :
    ∃ r, tmpfsFindNode env fs path = .ok r ∧ FirstMatch env fs path 0 r :=
  findFrom_first linked linked.root (by omega)

/-- The walk of the insertion ends at the node before the new one. -/
theorem insertFrom_eq (n : TmpfsNode) (fuel : Nat) (linked : Linked fs) (inside : i < fs.length)
    (enough : fs.length ≤ i + fuel) :
    ∃ last, fs[fs.length - 1]? = some last ∧
      insertFrom fs.length (fs ++ [n]) fuel i =
        .ok (((fs ++ [n]).set (fs.length - 1) { last with next := some fs.length }).modify fs.length
          fun x => { x with prev := some (fs.length - 1) }) := by
  induction fuel generalizing i with
  | zero => omega
  | succ fuel ih =>
    obtain ⟨node, here⟩ := inBounds_get inside
    have read : (fs ++ [n])[i]? = some node := by rw [List.getElem?_append_left inside, here]
    obtain more | last := Nat.lt_or_ge (i + 1) fs.length
    · obtain ⟨last, atLast, inserted⟩ := ih more (by omega)
      refine ⟨last, atLast, ?_⟩
      rw [insertFrom, read]
      simp only [inBounds_ok, ok_bind, linked.next i node here, if_pos more]
      exact inserted
    · obtain rfl : i = fs.length - 1 := by omega
      refine ⟨node, here, ?_⟩
      rw [insertFrom, read]
      simp only [inBounds_ok, ok_bind, linked.next _ node here, if_neg (Nat.not_lt.mpr last)]
      rfl

theorem set_same {k : Nat} (inside : fs[k]? = some n) (m : TmpfsNode) :
    (fs.set k m)[i]? = if k = i then some m else fs[i]? := by
  have bound : k < fs.length := List.getElem?_eq_some_iff.mp inside |>.1
  by_cases same : k = i
  · subst same
    rw [if_pos rfl, List.getElem?_set_self bound]
  · rw [if_neg same, List.getElem?_set_ne same]

theorem Linked.set (linked : Linked fs) (here : fs[i]? = some n) (next : n'.next = n.next)
    (prev : n'.prev = n.prev) : Linked (fs.set i n') := by
  constructor
  case root =>
    rw [List.length_set]
    exact linked.root
  case next =>
    intro j m hj
    rw [set_same here] at hj
    rw [List.length_set]
    split at hj
    next same =>
      cases hj
      rw [next, linked.next i n here, same]
    next => exact linked.next j m hj
  case prev =>
    intro j m hj
    rw [set_same here] at hj
    split at hj
    next same =>
      cases hj
      rw [prev, linked.prev i n here, same]
    next => exact linked.prev j m hj

/-- An insertion sets the two links between the last node and the new one. -/
theorem insert_get (linked : Linked fs) :
    ∃ fs', tmpfsInsert (fs ++ [n]) fs.length = .ok fs' ∧ fs'.length = fs.length + 1 ∧
      ∀ i m', fs'[i]? = some m' → ∃ m : TmpfsNode, (fs ++ [n])[i]? = some m ∧
        m' = { m with
          next := (if i + 1 = fs.length then some fs.length else m.next),
          prev := (if i = fs.length then some (fs.length - 1) else m.prev) } := by
  have root := linked.root
  obtain ⟨last, atLast, inserted⟩ := insertFrom_eq n (fs ++ [n]).length linked root
    (by rw [List.length_append]; omega)
  refine ⟨_, inserted, by simp, ?_⟩
  have lastRead : (fs ++ [n])[fs.length - 1]? = some last := by
    rw [List.getElem?_append_left (by omega), atLast]
  intro i m' read
  rw [List.getElem?_modify, set_same lastRead] at read
  obtain rfl | notLast := eq_or_ne (fs.length - 1) i
  · have away : fs.length ≠ fs.length - 1 := by omega
    simp only [if_neg away, Option.map_eq_map, Option.map_some, if_true] at read
    cases read
    refine ⟨last, lastRead, ?_⟩
    rw [if_pos (by omega), if_neg away.symm]
  · rw [if_neg notLast] at read
    obtain ⟨m, old, eq⟩ := Option.map_eq_some_iff.mp read
    refine ⟨m, old, ?_⟩
    rw [if_neg (by omega), ← eq]
    by_cases new : i = fs.length
    · rw [if_pos new, if_pos new.symm]
    · rw [if_neg new, if_neg (Ne.symm new)]

theorem Linked.insert (linked : Linked fs) (fresh : n.next = none)
    (inserted : tmpfsInsert (fs ++ [n]) fs.length = .ok fs') : Linked fs' := by
  have root := linked.root
  obtain ⟨_, eq, length, nodes⟩ := insert_get (n := n) linked
  cases inserted.symm.trans eq
  have old {i : Nat} {m : TmpfsNode} (read : (fs ++ [n])[i]? = some m) :
      i < fs.length ∧ fs[i]? = some m ∨ i = fs.length ∧ m = n := by
    obtain inside | outside := Nat.lt_or_ge i fs.length
    · rw [List.getElem?_append_left inside] at read
      exact .inl ⟨inside, read⟩
    · rw [List.getElem?_append_right outside] at read
      obtain ⟨zero, eq⟩ := List.getElem?_eq_some_iff.mp read
      rw [List.length_singleton] at zero
      exact .inr ⟨by omega, by simpa using eq.symm⟩
  refine ⟨by omega, ?_, ?_⟩
  · intro i m' read
    obtain ⟨m, before, rfl⟩ := nodes i m' read
    dsimp only
    obtain ⟨inside, here⟩ | ⟨rfl, rfl⟩ := old before
    · rw [linked.next i m here, length, if_pos (by omega : i + 1 < fs.length + 1)]
      split
      next last => rw [last]
      next notLast => rw [if_pos (by omega)]
    · rw [if_neg (by omega), if_neg (by omega), fresh]
  · intro i m' read
    obtain ⟨m, before, rfl⟩ := nodes i m' read
    dsimp only
    obtain ⟨inside, here⟩ | ⟨rfl, rfl⟩ := old before
    · rw [if_neg (by omega), linked.prev i m here]
    · rw [if_pos rfl, if_neg (by omega)]

theorem linked_init : Linked tmpfsInit := by
  refine ⟨Nat.one_pos, ?_, ?_⟩
  all_goals
    intro i n read
    obtain ⟨inside, rfl⟩ := List.getElem?_eq_some_iff.mp read
    obtain rfl := Nat.lt_one_iff.mp inside
    rfl

end X86Os.Fs
