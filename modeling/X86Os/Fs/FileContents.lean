import X86Os.Fs.Outcome

/-!
# Files as byte arrays

What a file should hold is read off the writes to its path. The code never
writes `file.len`: every file keeps the length 0, and each write starts from a
new block of one byte.
-/

namespace X86Os.Fs

open Library.Memory Libc Vfs
open Scheduler (bind_ok)
set_option autoImplicit false

structure FileWrite where
  path : CString
  off : Word
  buf : List Byte
  env : Surroundings

def writeAll : List FileWrite → Tmpfs → Except Fault Tmpfs
  | [], fs => .ok fs
  | w :: ws, fs => do writeAll ws (← tmpfsWrite w.env fs w.path w.off w.buf)

def FileWrite.stop (w : FileWrite) : Nat := w.off.toNat + w.buf.length

def lengthOf : List FileWrite → CString → Nat
  | [], _ => 0
  | w :: ws, p => if w.path = p then max w.stop (lengthOf ws p) else lengthOf ws p

def lastWritten : List FileWrite → CString → Nat → Option Byte
  | [], _, _ => none
  | w :: ws, p, k =>
    (lastWritten ws p k).or
      (if w.path = p ∧ w.off.toNat ≤ k then w.buf[k - w.off.toNat]? else none)

def storedLength (env : Surroundings) (fs : Tmpfs) (p : CString) : Except Fault Nat := do
  match ← tmpfsFindNode env fs p with
  | none => return 0
  | some i => return (← inBounds fs[i]?).len.toNat

/-- Behind the writes the files have their lengths, and reads inside a file return what was
written last. -/
def RefinesMap (ws : List FileWrite) : Prop :=
  ∃ fs, writeAll ws tmpfsInit = .ok fs ∧ ∀ env p,
    storedLength env fs p = .ok (lengthOf ws p) ∧
    ∀ offset size : Word, offset.toNat + size.toNat ≤ lengthOf ws p →
      ∀ k < size.toNat, ∀ b, lastWritten ws p (offset.toNat + k) = some b →
        ∃ bytes n, tmpfsRead env fs p offset size = .ok (some (bytes, n)) ∧ bytes[k]? = some b

variable {env : Surroundings} {fs fs' : Tmpfs} {path p : CString} {n n' : TmpfsNode} {i : Nat}
variable {off : Word} {buf : List Byte} {ws : List FileWrite} {w : FileWrite}

structure Lengthless (fs : Tmpfs) : Prop where
  linked : Linked fs
  len : ∀ (i : Nat) (n : TmpfsNode), fs[i]? = some n → n.len = 0

theorem memcpyNew_returns {size : Nat} (env : Surroundings) (src : List Byte) (start : Nat)
    (fits : size < 2 ^ 31) :
    ∃ d, memcpyNew env src start size = .ok d ∧ d.length = size :=
  ⟨_, if_pos fits, (List.length_map _).trans List.length_range⟩

/-- A file without length starts from one byte, and grows to what the write needs. -/
theorem extend_returns {stop : Nat} (empty : n.len = 0) (fits : stop < 2 ^ 31) :
    ∃ d, extend env stop (firstBlock env n) = .ok { n with data := some d } ∧ stop ≤ d.length := by
  have first : firstBlock env n = { n with data := some [env.garbage 0] } := if_pos empty
  rw [first]
  unfold extend
  split
  next =>
    obtain ⟨d, copied, length⟩ := memcpyNew_returns env [env.garbage 0] 0 fits
    refine ⟨d, ?_, length.ge⟩
    simp only [deref_ok, ok_bind, copied]
    rfl
  next small =>
    refine ⟨_, rfl, ?_⟩
    have zero : n.len.toNat = 0 := by rw [empty]; rfl
    have short : stop ≤ 0 := zero ▸ Nat.not_lt.mp small
    exact short.trans (Nat.zero_le _)

theorem storeFile_returns (empty : n.len = 0) (fits : off.toNat + buf.length < 2 ^ 31) :
    ∃ n', storeFile env off buf n = .ok n' := by
  obtain ⟨d, extended, enough⟩ := @extend_returns env n _ empty fits
  have copied : memcpyInto d off.toNat buf =
      .ok (d.take off.toNat ++ buf ++ d.drop (off.toNat + buf.length)) := if_pos ⟨by omega, enough⟩
  refine ⟨{ n with data := some (d.take off.toNat ++ buf ++ d.drop (off.toNat + buf.length)) }, ?_⟩
  simp only [storeFile, extended, deref_ok, ok_bind, copied]
  rfl

theorem Outcome.lengthless {target : Nat} (outcome : Outcome env fs path fs' target)
    (ok : Lengthless fs) : Lengthless fs' := by
  refine ⟨outcome.linked, ?_⟩
  intro i n here
  obtain ⟨m, before, same⟩ | ⟨_, _, empty, _⟩ := outcome.node here
  · exact same.len.trans (ok.len i m before)
  · exact empty

theorem Lengthless.write (ok : Lengthless fs) (written : tmpfsWrite env fs path off buf = .ok fs') :
    Lengthless fs' := by
  obtain ⟨_, outcome⟩ := write_outcome ok.linked written
  exact outcome.lengthless ok

theorem Lengthless.writeAll (ok : Lengthless fs) (written : writeAll ws fs = .ok fs') :
    Lengthless fs' := by
  induction ws generalizing fs with
  | nil =>
    cases written
    exact ok
  | cons w ws ih =>
    obtain ⟨_, first, rest⟩ := bind_ok written
    exact ih (ok.write first) rest

theorem lengthless_init : Lengthless tmpfsInit := by
  refine ⟨linked_init, ?_⟩
  intro i n read
  obtain ⟨inside, rfl⟩ := List.getElem?_eq_some_iff.mp read
  obtain rfl := Nat.lt_one_iff.mp inside
  rfl

theorem Lengthless.storedLength (ok : Lengthless fs) : storedLength env fs p = .ok 0 := by
  obtain ⟨r, found, first⟩ := find_first env p ok.linked
  rw [Fs.storedLength, found]
  cases r with
  | none => rfl
  | some i =>
    obtain ⟨n, here⟩ := inBounds_get first.1.inside
    simp only [ok_bind, here, inBounds_ok, ok.len i n here]
    rfl

theorem Lengthless.write_returns (ok : Lengthless fs) (env : Surroundings) (path : CString)
    (fits : off.toNat + buf.length < 2 ^ 31) : ∃ fs', tmpfsWrite env fs path off buf = .ok fs' := by
  obtain ⟨fs₁, i, made, outcome⟩ := findOrCreate_outcome env path ok.linked
  obtain ⟨n, here⟩ := inBounds_get outcome.inside
  obtain ⟨n', stored⟩ : ∃ n', storeFile env off buf n = .ok n' :=
    storeFile_returns ((outcome.lengthless ok).len i n here) fits
  refine ⟨fs₁.set i n', ?_⟩
  simp only [tmpfsWrite, made, ok_bind, here, inBounds_ok, stored]
  rfl

theorem Lengthless.writeAll_nothing (ok : Lengthless fs)
    (nothing : ∀ w ∈ ws, w.off = 0 ∧ w.buf = []) : ∃ fs', Fs.writeAll ws fs = .ok fs' := by
  induction ws generalizing fs with
  | nil => exact ⟨fs, rfl⟩
  | cons w ws ih =>
    obtain ⟨offset, bytes⟩ := nothing w List.mem_cons_self
    have fits : w.off.toNat + w.buf.length < 2 ^ 31 := by
      rw [offset, bytes]
      decide
    obtain ⟨fs₁, first⟩ := ok.write_returns w.env w.path fits
    obtain ⟨fs', rest⟩ := ih (ok.write first) fun w hw => nothing w (List.mem_cons_of_mem _ hw)
    refine ⟨fs', ?_⟩
    rw [Fs.writeAll, first]
    exact rest

theorem stop_le_lengthOf (hw : w ∈ ws) : w.stop ≤ lengthOf ws w.path := by
  induction ws with
  | nil => cases hw
  | cons v ws ih =>
    rw [lengthOf]
    obtain rfl | hw := List.mem_cons.mp hw
    · rw [if_pos rfl]
      exact le_max_left ..
    · split
      · exact (ih hw).trans (le_max_right ..)
      · exact ih hw

theorem lengthOf_nothing (nothing : ∀ w ∈ ws, w.off = 0 ∧ w.buf = []) : lengthOf ws p = 0 := by
  induction ws with
  | nil => rfl
  | cons w ws ih =>
    have rest := ih fun w hw => nothing w (List.mem_cons_of_mem _ hw)
    obtain ⟨offset, bytes⟩ := nothing w List.mem_cons_self
    have stop : w.stop = 0 := by rw [FileWrite.stop, offset, bytes]; rfl
    rw [lengthOf, rest, stop]
    split <;> rfl

/-- The files hold what they should if and only if nothing is ever written to them. -/
theorem refinesMap_iff : RefinesMap ws ↔ ∀ w ∈ ws, w.off = 0 ∧ w.buf = [] := by
  constructor
  · rintro ⟨fs, written, right⟩ w hw
    have ok := lengthless_init.writeAll written
    have length := (right w.env w.path).1
    rw [ok.storedLength] at length
    have zero : w.stop ≤ 0 := (stop_le_lengthOf hw).trans (Except.ok.inj length).ge
    rw [FileWrite.stop] at zero
    exact ⟨BitVec.eq_of_toNat_eq (by simp; omega), List.length_eq_zero_iff.mp (by omega)⟩
  · intro nothing
    obtain ⟨fs, written⟩ := lengthless_init.writeAll_nothing nothing
    refine ⟨fs, written, ?_⟩
    intro env p
    rw [lengthOf_nothing nothing]
    refine ⟨(lengthless_init.writeAll written).storedLength, ?_⟩
    intro offset size inside k hk
    omega

/-- Zeros behind every block. -/
def quietSurroundings : Surroundings := ⟨fun _ _ => 0, fun _ => 0, 0⟩

def pathF : CString := ⟨[0x66], by decide⟩

/-- Two bytes are written one after the other; a read of the file finds the second one only. -/
def twoWrites : List FileWrite :=
  [⟨pathF, 0, [0x41], quietSurroundings⟩, ⟨pathF, 1, [0x42], quietSurroundings⟩]

theorem write_lost : ¬ RefinesMap twoWrites ∧
    (writeAll twoWrites tmpfsInit).bind (tmpfsRead quietSurroundings · pathF 0 2) =
      .ok (some ([0, 0x42], 0)) ∧
    lastWritten twoWrites pathF 0 = some 0x41 := by
  refine ⟨?_, by decide, by decide⟩
  rintro ⟨fs, written, right⟩
  have length := (right quietSurroundings pathF).1
  rw [(lengthless_init.writeAll written).storedLength] at length
  cases length

end X86Os.Fs
