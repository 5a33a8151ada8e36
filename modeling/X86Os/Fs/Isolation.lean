import X86Os.Fs.Calls

/-!
# Paths that stand for one another

A lookup takes the first node whose path begins with the given one. It hits the
wrong file if a longer path was stored before the given one, or if memory behind
an unterminated copy goes on in the right way. A call through such a lookup
writes to the file of another path, or makes no node for its own.
-/

namespace X86Os.Fs

open Library.Memory Libc Vfs
set_option autoImplicit false

/-- The bytes that a comparison with `p` can see of a node's path. -/
def shownPath (env : Surroundings) (i : Nat) (n : TmpfsNode) (p : CString) : List Byte :=
  n.path ++ (List.range (strlen p)).map (env.behindPath i)

/-- The nodes of other paths than `p` stay, and no others join them. -/
structure OthersKept (fs fs' : Tmpfs) (p : CString) : Prop where
  old : ∀ (i : Nat) (n : TmpfsNode), fs[i]? = some n → n.storedPath ≠ p.bytes →
    ∃ n', fs'[i]? = some n' ∧ n'.storedPath = n.storedPath ∧ n'.isDir = n.isDir ∧
      n'.data = n.data ∧ n'.len = n.len
  new : ∀ (i : Nat) (n' : TmpfsNode), fs'[i]? = some n' → n'.storedPath ≠ p.bytes → i < fs.length

structure Isolated (env : Surroundings) (fs : Tmpfs) (p : CString) : Prop where
  find : ∀ i, tmpfsFindNode env fs p = .ok (some i) →
    ∃ n, fs[i]? = some n ∧ n.storedPath = p.bytes
  write : ∀ off buf fs', tmpfsWrite env fs p off buf = .ok fs' → OthersKept fs fs' p
  mkdir : ∀ fs', tmpfsMkdir env fs p = .ok fs' → OthersKept fs fs' p

variable {env : Surroundings} {fs fs' : Tmpfs} {p : CString} {n : TmpfsNode} {i target : Nat}
variable {cs : List FileCall}

theorem strcmpPath_eq_false :
    strcmpPath env i n p = false ↔ p.bytes <+: shownPath env i n p :=
  differ_eq_false

theorem storedPath_begins : n.storedPath <+: n.path :=
  List.takeWhile_prefix _

theorem matches_own (here : fs[i]? = some n) (own : n.storedPath = p.bytes) : Matches env fs p i := by
  have begins : p.bytes <+: n.path := by
    rw [← own]
    exact storedPath_begins
  exact ⟨n, here, strcmpPath_eq_false.mpr (begins.trans (List.prefix_append ..))⟩

theorem storedPath_copy (copied : n.path = p.bytes) : n.storedPath = p.bytes := by
  rw [TmpfsNode.storedPath, copied]
  refine List.takeWhile_eq_self_iff.mpr ?_
  intro b hb
  rw [decide_eq_true_iff]
  rintro rfl
  exact p.terminated hb

theorem Outcome.othersKept (outcome : Outcome env fs p fs' target)
    (exact : ∀ n, fs[target]? = some n → n.storedPath = p.bytes) : OthersKept fs fs' p := by
  constructor
  · intro i n here other
    obtain ⟨n', here', same, data⟩ := outcome.old i n here
    have away : i ≠ target := by
      rintro rfl
      exact other (exact n here)
    exact ⟨n', here', same.storedPath, same.isDir, data away, same.len⟩
  · intro i n' here' other
    have inside := (List.getElem?_eq_some_iff.mp here').1
    obtain ⟨_, _, length⟩ | ⟨_, rfl, length, m, made, copied, _⟩ := outcome.found
    · omega
    · obtain before | rfl := Nat.lt_or_eq_of_le (Nat.le_of_lt_succ (length ▸ inside))
      · exact before
      · cases made.symm.trans here'
        exact absurd (storedPath_copy copied) other

/-- When a lookup of `p` takes a node for `p` only, so do the other operations. -/
theorem isolated_of_own (linked : Linked fs)
    (own : ∀ k, FirstMatch env fs p 0 (some k) → ∃ n, fs[k]? = some n ∧ n.storedPath = p.bytes) :
    Isolated env fs p := by
  have kept : ∀ fs' target, Outcome env fs p fs' target → OthersKept fs fs' p := by
    intro fs' target outcome
    apply outcome.othersKept
    intro n here
    obtain ⟨hit, first, _⟩ | ⟨_, last, _⟩ := outcome.found
    · obtain ⟨_, here', stored⟩ := own target ⟨hit, fun j _ before => first j before⟩
      cases here.symm.trans here'
      exact stored
    · have inside := (List.getElem?_eq_some_iff.mp here).1
      omega
  constructor
  case find =>
    intro k found
    obtain ⟨_, found', first⟩ := find_first env p linked
    cases found.symm.trans found'
    exact own k first
  case write =>
    intro off buf fs' written
    obtain ⟨target, outcome⟩ := write_outcome linked written
    exact kept fs' target outcome
  case mkdir =>
    intro fs' made
    obtain ⟨_, target, made', outcome⟩ := mkdir_outcome env p linked
    cases made.symm.trans made'
    exact kept fs' target outcome

def pathFx : CString := ⟨[0x66, 0x78], by decide⟩

def longPathFirst : List FileCall := [.write ⟨pathFx, 0, [0x41], quietSurroundings⟩]

end X86Os.Fs
