import X86Os.Fs.Calls

/-!
# The copies of tmpfs_read and tmpfs_write

Each `memcpy` with the room in the two blocks that it goes between. A write
starts from a new block of one byte, because `file.len` is never set, and copies
as many bytes out of it as the file is to have. A read copies what its caller
asked for, and fills in no size.
-/

namespace X86Os.Fs

open Library.Memory Libc Vfs
open Scheduler (bind_ok)
set_option autoImplicit false

/-- A buffer of a caller, with as many bytes as its `size` says. -/
structure Buffer where
  bytes : List Byte
  fits : bytes.length < 2 ^ 32

/-- `memcpy(dst, src, num)` with the bytes that are left in the blocks of `src` and `dst`. -/
structure Copy where
  source : Nat
  dest : Nat
  num : Nat

/-- The loop `while (a--)` runs `num` times, modulo 2^32. -/
def Copy.InBounds (c : Copy) : Prop := c.num % 2 ^ 32 ≤ c.source ∧ c.num % 2 ^ 32 ≤ c.dest

/-- The bytes behind the answer of `malloc(n)`, which may be `(void *)-1`. -/
def room (granted : Bool) (n : Nat) : Nat := if granted ∧ n < 2 ^ 32 then n else 0

def TmpfsNode.room (n : TmpfsNode) : Nat := n.data.elim 0 List.length

/-- The copies of `tmpfs_write` behind the lookup; `granted` answers its two calls of `malloc`. -/
def storeCopies (granted : Nat → Bool) (off : Word) (buf : Buffer) (node : TmpfsNode) : List Copy :=
  let len := buf.bytes.length
  let stop := off.toNat + len
  let data := if node.len = 0 then room (granted 0) 1 else node.room
  if node.len.toNat < stop then
    let dn := room (granted 1) stop
    [⟨data, dn, stop⟩, ⟨len, dn - off.toNat, len⟩]
  else [⟨len, data - off.toNat, len⟩]

def writeCopies (env : Surroundings) (granted : Nat → Bool) (fs : Tmpfs) (path : CString) (off : Word)
    (buf : Buffer) : Except Fault (List Copy) := do
  let (fs, i) ← findOrCreate env fs path
  return storeCopies granted off buf (← inBounds fs[i]?)

def readCopies (env : Surroundings) (granted : Bool) (fs : Tmpfs) (path : CString)
    (offset size : Word) : Except Fault (List Copy) := do
  match ← tmpfsFindNode env fs path with
  | none => return []
  | some i =>
    let node ← inBounds fs[i]?
    if offset > node.len then return []
    if node.isDir then return []
    return [⟨node.room - offset.toNat, room granted size.toNat, size.toNat⟩]

def readLength (env : Surroundings) (fs : Tmpfs) (path : CString) (offset size : Word) :
    Except Fault Nat := do
  match ← tmpfsFindNode env fs path with
  | none => return 0
  | some i =>
    let node ← inBounds fs[i]?
    if offset > node.len ∨ node.isDir then return 0
    return min size.toNat (node.len.toNat - offset.toNat)

def WriteOk (env : Surroundings) (granted : Nat → Bool) (fs : Tmpfs) (path : CString) (off : Word)
    (buf : Buffer) : Prop :=
  ∃ copies, writeCopies env granted fs path off buf = .ok copies ∧ ∀ c ∈ copies, c.InBounds

/-- The copies stay in bounds, and the caller gets the right number of bytes and finds it in the
size of the buffer. Where the function ends without a value, that is what was there before. -/
def ReadOk (env : Surroundings) (granted : Bool) (fs : Tmpfs) (path : CString) (offset size : Word) :
    Prop :=
  ∃ copies answer count, readCopies env granted fs path offset size = .ok copies ∧
    (∀ c ∈ copies, c.InBounds) ∧ tmpfsRead env fs path offset size = .ok answer ∧
    readLength env fs path offset size = .ok count ∧
    answer.elim 0 (·.1.length) = count ∧ (answer.elim env.bufferSize Prod.snd).toNat = count

/-- A read of this path goes as far as its copy. -/
def Readable (env : Surroundings) (fs : Tmpfs) (path : CString) (offset : Word) : Prop :=
  ∃ i n, tmpfsFindNode env fs path = .ok (some i) ∧ fs[i]? = some n ∧ offset ≤ n.len ∧ n.isDir = false

variable {env : Surroundings} {fs fs' : Tmpfs} {path : CString} {n n' : TmpfsNode} {i : Nat}
variable {off offset size : Word} {buf : Buffer} {cs : List FileCall} {c : FileCall}
variable {granted : Nat → Bool} {grant : Bool}

/-! ## Reachable states -/

structure Backed (fs : Tmpfs) : Prop extends Lengthless fs where
  block : ∀ (i : Nat) (n : TmpfsNode), fs[i]? = some n → n.isDir = false → ∃ data, n.data = some data

theorem storeFile_data {bytes : List Byte} (stored : storeFile env off bytes n = .ok n') :
    ∃ data, n'.data = some data := by
  obtain ⟨_, _, rest⟩ := bind_ok stored
  obtain ⟨_, _, rest⟩ := bind_ok rest
  obtain ⟨data, _, rest⟩ := bind_ok rest
  cases rest
  exact ⟨data, rfl⟩

theorem Backed.write {bytes : List Byte} (ok : Backed fs)
    (written : tmpfsWrite env fs path off bytes = .ok fs') : Backed fs' := by
  refine ⟨ok.toLengthless.write written, ?_⟩
  obtain ⟨⟨fs₁, target⟩, made, rest⟩ := bind_ok written
  obtain ⟨_, _, made', outcome⟩ := findOrCreate_outcome env path ok.linked
  cases made.symm.trans made'
  obtain ⟨node, bound, rest⟩ := bind_ok rest
  obtain ⟨node', stored, rest⟩ := bind_ok rest
  cases rest
  intro i n here file
  rw [set_same (inBounds_some bound)] at here
  split at here
  next =>
    cases here
    exact storeFile_data stored
  next other =>
    obtain ⟨m, before, same⟩ | ⟨new, _, _, none⟩ := outcome.node here
    · obtain ⟨_, read, _, data⟩ := outcome.old i m before
      cases here.symm.trans read
      rw [data (Ne.symm other)]
      exact ok.block i m before (same.isDir ▸ file)
    · obtain ⟨hit, _⟩ | ⟨_, last, _⟩ := outcome.found
      · exact absurd hit (none target)
      · exact absurd (last.trans new.symm) other

theorem Backed.mkdir (ok : Backed fs) (made : tmpfsMkdir env fs path = .ok fs') : Backed fs' := by
  obtain ⟨fs₁, target, made', outcome⟩ := mkdir_outcome env path ok.linked
  cases made.symm.trans made'
  refine ⟨outcome.lengthless ok.toLengthless, ?_⟩
  obtain ⟨r, found, first⟩ := find_first env path ok.linked
  rw [tmpfsMkdir, found] at made
  cases r with
  | some i =>
    cases made
    exact ok.block
  | none =>
    obtain ⟨_, inserted, touched, length, n', last, same⟩ :=
      insert_touched (n := ⟨none, none, true, path.bytes, none, 0⟩) ok.linked rfl
    cases made.symm.trans inserted
    intro i n here file
    obtain old | new := Nat.lt_or_ge i fs.length
    · obtain ⟨m, before⟩ := inBounds_get old
      obtain ⟨_, read, kept, data⟩ := touched.old i m before
      cases here.symm.trans read
      rw [data (by omega)]
      exact ok.block i m before (kept.isDir ▸ file)
    · have inside := (List.getElem?_eq_some_iff.mp here).1
      obtain rfl : i = fs.length := by omega
      cases here.symm.trans last
      exact absurd (same.isDir.symm.trans file) (by simp)

theorem performCalls_backed (ok : Backed fs) (run : performCalls cs fs = .ok fs') : Backed fs' := by
  induction cs generalizing fs with
  | nil =>
    cases run
    exact ok
  | cons c cs ih =>
    obtain ⟨fs₁, first, rest⟩ := bind_ok run
    cases c with
    | write w => exact ih (ok.write first) rest
    | mkdir path env => exact ih (ok.mkdir first) rest

theorem backed_init : Backed tmpfsInit := by
  refine ⟨lengthless_init, ?_⟩
  intro i n here file
  obtain ⟨inside, rfl⟩ := List.getElem?_eq_some_iff.mp here
  obtain rfl := Nat.lt_one_iff.mp inside
  cases file

/-! ## Writes -/

theorem room_small {size : Nat} (fits : size < 2 ^ 32) : room grant size = if grant then size else 0 := by
  simp only [room, fits, and_true]

theorem storeCopies_iff (empty : n.len = 0) :
    (∀ c ∈ storeCopies granted off buf n, c.InBounds) ↔
      off.toNat + buf.bytes.length = 0 ∨
        off.toNat + buf.bytes.length = 1 ∧ granted 0 = true ∧ granted 1 = true := by
  have short := buf.fits
  have small := off.isLt
  have length : (0 : Word).toNat = 0 := rfl
  simp only [storeCopies, empty, length, if_true]
  split
  next more =>
    simp only [List.forall_mem_cons, List.not_mem_nil, false_implies, forall_true_iff, and_true,
      Copy.InBounds]
    -- no block has 2^32 bytes, so the second copy fails where the sum wraps
    obtain whole | wraps := Nat.lt_or_ge (off.toNat + buf.bytes.length) (2 ^ 32)
    · rw [Nat.mod_eq_of_lt whole, Nat.mod_eq_of_lt short, room_small (by decide), room_small whole]
      cases granted 0 <;> cases granted 1 <;>
        simp only [Bool.false_eq_true, if_false, if_true, and_self, and_true, and_false, or_false] <;> omega
    · rw [room, room, if_neg (fun granted => wraps.not_gt granted.2 : ¬ (granted 1 = true ∧ _))]
      omega
  next nothing =>
    have start : off.toNat = 0 := by omega
    have none : buf.bytes.length = 0 := by omega
    simp [Copy.InBounds, start, none]

theorem writeOk_iff (ok : Backed fs) : WriteOk env granted fs path off buf ↔
    off.toNat + buf.bytes.length = 0 ∨
      off.toNat + buf.bytes.length = 1 ∧ granted 0 = true ∧ granted 1 = true := by
  obtain ⟨fs₁, i, made, outcome⟩ := findOrCreate_outcome env path ok.linked
  obtain ⟨n, here⟩ := inBounds_get outcome.inside
  have empty := (outcome.lengthless ok.toLengthless).len i n here
  have copies : writeCopies env granted fs path off buf = .ok (storeCopies granted off buf n) := by
    simp only [writeCopies, made, ok_bind, here, inBounds_ok]
    rfl
  rw [WriteOk, copies, ← storeCopies_iff empty]
  simp

/-! ## Reads -/

theorem readOk_unread (unread : ¬ Readable env fs path offset) (ok : Backed fs) :
    ReadOk env grant fs path offset size ↔ env.bufferSize = 0 := by
  obtain ⟨r, found, first⟩ := find_first env path ok.linked
  have nothing : readCopies env grant fs path offset size = .ok [] ∧
      tmpfsRead env fs path offset size = .ok none ∧ readLength env fs path offset size = .ok 0 := by
    cases r with
    | none => simp only [readCopies, tmpfsRead, readLength, found, ok_bind]; exact ⟨rfl, rfl, rfl⟩
    | some i =>
      obtain ⟨n, here⟩ := inBounds_get first.1.inside
      simp only [readCopies, tmpfsRead, readLength, found, ok_bind, here, inBounds_ok]
      by_cases behind : offset > n.len
      · simp only [if_pos behind, if_pos (Or.inl behind : offset > n.len ∨ n.isDir = true)]
        exact ⟨rfl, rfl, rfl⟩
      · have dir : n.isDir = true := by
          by_contra file
          exact unread ⟨i, n, found, here, BitVec.not_lt.mp behind, Bool.eq_false_iff.mpr file⟩
        simp only [if_neg behind, if_pos dir, if_pos (Or.inr dir : offset > n.len ∨ n.isDir = true)]
        exact ⟨rfl, rfl, rfl⟩
  obtain ⟨copies, read, length⟩ := nothing
  constructor
  · rintro ⟨_, _, _, _, _, read', length', _, filled⟩
    cases read.symm.trans read'
    cases length.symm.trans length'
    exact BitVec.eq_of_toNat_eq filled
  · intro zero
    refine ⟨_, _, _, copies, by simp, read, length, rfl, ?_⟩
    simp [zero]

theorem readOk_readable (readable : Readable env fs path offset) (ok : Backed fs) :
    ReadOk env grant fs path offset size ↔ env.bufferSize = 0 ∧ size = 0 := by
  obtain ⟨i, n, found, here, inside, file⟩ := readable
  obtain ⟨data, block⟩ := ok.block i n here file
  have notBehind : ¬ offset > n.len := BitVec.not_lt.mpr inside
  have length : readLength env fs path offset size = .ok 0 := by
    simp only [readLength, found, ok_bind, here, inBounds_ok]
    rw [if_neg (by simp [notBehind, file]), ok.len i n here]
    simp
    rfl
  have copies : readCopies env grant fs path offset size =
      .ok [⟨n.room - offset.toNat, room grant size.toNat, size.toNat⟩] := by
    simp only [readCopies, found, ok_bind, here, inBounds_ok, if_neg notBehind, file]
    rfl
  have read : tmpfsRead env fs path offset size =
      (memcpyNew env data offset.toNat size.toNat).map fun bytes => some (bytes, env.bufferSize) := by
    simp only [tmpfsRead, found, ok_bind, here, inBounds_ok, if_neg notBehind, file, block, deref_ok]
    cases memcpyNew env data offset.toNat size.toNat <;> rfl
  constructor
  · rintro ⟨_, answer, _, _, _, read', length', count, filled⟩
    cases length.symm.trans length'
    rw [read] at read'
    obtain fits | long := Nat.lt_or_ge size.toNat (2 ^ 31)
    · obtain ⟨bytes, copied, long⟩ := memcpyNew_returns env data offset.toNat fits
      rw [copied] at read'
      cases read'
      exact ⟨BitVec.eq_of_toNat_eq filled, BitVec.eq_of_toNat_eq (long.symm.trans count)⟩
    · rw [memcpyNew, if_neg long.not_gt] at read'
      cases read'
  · rintro ⟨zero, rfl⟩
    refine ⟨_, some ([], env.bufferSize), 0, copies, ?_, read, length, rfl, ?_⟩
    · simp [Copy.InBounds]
    · simp [zero]

/-- Reads and writes are right if and only if they move next to nothing: a write brings the file
to one byte at most, a read that finds its file asks for no byte, and where the size of the
returned buffer lies there was a zero. -/
theorem copies_ok_iff (run : performCalls cs tmpfsInit = .ok fs) :
    (WriteOk env granted fs path off buf ↔ off.toNat + buf.bytes.length = 0 ∨
      off.toNat + buf.bytes.length = 1 ∧ granted 0 = true ∧ granted 1 = true) ∧
    (ReadOk env grant fs path offset size ↔
      env.bufferSize = 0 ∧ (Readable env fs path offset → size = 0)) := by
  have ok := performCalls_backed backed_init run
  refine ⟨writeOk_iff ok, ?_⟩
  by_cases readable : Readable env fs path offset
  · rw [readOk_readable readable ok]
    simp [readable]
  · rw [readOk_unread readable ok]
    simp [readable]

/-- A directory, and a file that was written twice. -/
def writtenTwice : List FileCall :=
  [.mkdir ⟨[0x64], by decide⟩ quietSurroundings, .write ⟨pathF, 0, [0x41], quietSurroundings⟩,
    .write ⟨pathF, 0, [0x42], quietSurroundings⟩]

theorem copies_ok_iff_written : ∃ fs, performCalls writtenTwice tmpfsInit = .ok fs ∧
    WriteOk quietSurroundings (fun _ => true) fs pathF 0 ⟨[0x43], by decide⟩ ∧
    ¬WriteOk quietSurroundings (fun _ => true) fs pathF 1 ⟨[0x43], by decide⟩ ∧
    ReadOk quietSurroundings true fs pathF 0 0 ∧ ¬ReadOk quietSurroundings true fs pathF 0 1 := by
  obtain ⟨fs, run⟩ : ∃ fs, performCalls writtenTwice tmpfsInit = .ok fs := ⟨_, rfl⟩
  have readable : Readable quietSurroundings fs pathF 0 := by
    cases run
    exact ⟨2, _, rfl, rfl, by decide, rfl⟩
  have first := @copies_ok_iff quietSurroundings fs pathF 0 0 0 ⟨[0x43], by decide⟩ writtenTwice
    (fun _ => true) true run
  have second := @copies_ok_iff quietSurroundings fs pathF 1 0 1 ⟨[0x43], by decide⟩ writtenTwice
    (fun _ => true) true run
  refine ⟨fs, run, first.1.mpr (.inr ⟨rfl, rfl, rfl⟩), fun ok => ?_, first.2.mpr ⟨rfl, fun _ => rfl⟩,
    fun ok => ?_⟩
  · exact absurd (second.1.mp ok) (by decide)
  · exact absurd ((second.2.mp ok).2 readable) (by decide)

/-- Two bytes are written to a new file: the first copy takes both out of a block of one. Then one
byte is read from a file without length. -/
theorem copies_miss :
    ¬ WriteOk quietSurroundings (fun _ => true) tmpfsInit pathF 0 ⟨[0x41, 0x42], by decide⟩ ∧
    ∃ fs, performCalls [.write ⟨pathF, 0, [0x41], quietSurroundings⟩] tmpfsInit = .ok fs ∧
      ¬ ReadOk quietSurroundings true fs pathF 0 1 := by
  constructor
  · rintro ⟨copies, written, inside⟩
    have copied : writeCopies quietSurroundings (fun _ => true) tmpfsInit pathF 0
        ⟨[0x41, 0x42], by decide⟩ = .ok [⟨1, 2, 2⟩, ⟨2, 2, 2⟩] := rfl
    cases copied.symm.trans written
    exact absurd (inside ⟨1, 2, 2⟩ List.mem_cons_self).1 (by decide)
  · refine ⟨_, rfl, ?_⟩
    rintro ⟨_, _, _, _, _, read, length, count, _⟩
    cases read
    cases length
    exact absurd count (by decide)

end X86Os.Fs
