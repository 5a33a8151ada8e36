import X86Os.Fs.Tmpfs
import X86Os.Scheduler.Steps

/-!
# What a call of the memory file system does to its nodes

`tmpfs_write` and `tmpfs_mkdir` look the path up first. When a node answers, a
write changes its data and nothing else; otherwise a node for the path joins the
end of the list.
-/

namespace X86Os.Fs

open Library.Memory Libc Vfs
open Scheduler (bind_ok)
set_option autoImplicit false

def tmpfsMkdir (env : Surroundings) (fs : Tmpfs) (path : CString) : Except Fault Tmpfs := do
  match ← tmpfsFindNode env fs path with
  | some _ => return fs
  | none => tmpfsInsert (fs ++ [{ newNode path.bytes with isDir := true }]) fs.length

structure SameNode (n n' : TmpfsNode) : Prop where
  path : n'.path = n.path
  isDir : n'.isDir = n.isDir
  len : n'.len = n.len

/-- A call on the node at `target` leaves the others as they were. Behind `fs` there may be a
new node for the path. -/
structure Touched (fs fs' : Tmpfs) (target : Nat) : Prop where
  linked : Linked fs'
  old : ∀ i n, fs[i]? = some n →
    ∃ n', fs'[i]? = some n' ∧ SameNode n n' ∧ (i ≠ target → n'.data = n.data)

/-- The target is the node that was found, or a new one. -/
structure Outcome (env : Surroundings) (fs : Tmpfs) (path : CString) (fs' : Tmpfs) (target : Nat) :
    Prop extends Touched fs fs' target where
  found : Matches env fs path target ∧ (∀ j < target, ¬ Matches env fs path j) ∧
      fs'.length = fs.length ∨
    (∀ j, ¬ Matches env fs path j) ∧ target = fs.length ∧ fs'.length = fs.length + 1 ∧
      ∃ n, fs'[target]? = some n ∧ n.path = path.bytes ∧ n.len = 0

variable {env : Surroundings} {fs fs' : Tmpfs} {path : CString} {n n' : TmpfsNode} {i target : Nat}
variable {off : Word} {buf : List Byte}

namespace SameNode

theorem refl (n : TmpfsNode) : SameNode n n := ⟨rfl, rfl, rfl⟩

theorem trans {m : TmpfsNode} (first : SameNode n n') (second : SameNode n' m) : SameNode n m :=
  ⟨second.path.trans first.path, second.isDir.trans first.isDir, second.len.trans first.len⟩

end SameNode

namespace Outcome

theorem inside (outcome : Outcome env fs path fs' target) : target < fs'.length := by
  obtain ⟨hit, _, length⟩ | ⟨_, _, length, _⟩ := outcome.found
  · rw [length]
    exact hit.inside
  · omega

/-- Every node was there before, or is the new one. -/
theorem node (outcome : Outcome env fs path fs' target) (here : fs'[i]? = some n') :
    (∃ n, fs[i]? = some n ∧ SameNode n n') ∨
      i = fs.length ∧ n'.path = path.bytes ∧ n'.len = 0 ∧ ∀ j, ¬ Matches env fs path j := by
  obtain old | new := Nat.lt_or_ge i fs.length
  · obtain ⟨n, before⟩ := inBounds_get old
    obtain ⟨_, here', same, _⟩ := outcome.old i n before
    cases here.symm.trans here'
    exact .inl ⟨n, before, same⟩
  · have inside := (List.getElem?_eq_some_iff.mp here).1
    obtain ⟨_, _, length⟩ | ⟨none, rfl, length, m, made, copied, empty⟩ := outcome.found
    · omega
    · obtain rfl : i = fs.length := by omega
      cases made.symm.trans here
      exact .inr ⟨rfl, copied, empty, none⟩

/-- A call that finds node `i` and leaves the list alone. -/
theorem stay (linked : Linked fs) (first : FirstMatch env fs path 0 (some i)) :
    Outcome env fs path fs i := by
  refine ⟨⟨linked, ?_⟩, .inl ⟨first.1, ?_, rfl⟩⟩
  · intro j m here
    exact ⟨m, here, .refl m, fun _ => rfl⟩
  · intro j before
    exact first.2 j (Nat.zero_le j) before

end Outcome

theorem insert_touched (linked : Linked fs) (fresh : n.next = none) :
    ∃ fs', tmpfsInsert (fs ++ [n]) fs.length = .ok fs' ∧ Touched fs fs' fs.length ∧
      fs'.length = fs.length + 1 ∧ ∃ n', fs'[fs.length]? = some n' ∧ SameNode n n' := by
  obtain ⟨fs', inserted, length, nodes⟩ := insert_get (n := n) linked
  refine ⟨fs', inserted, ⟨linked.insert fresh inserted, ?_⟩, length, ?_⟩
  · intro i m here
    have inside : i < fs.length := (List.getElem?_eq_some_iff.mp here).1
    obtain ⟨m', read⟩ := inBounds_get (show i < fs'.length by omega)
    obtain ⟨m₀, before, rfl⟩ := nodes i m' read
    rw [List.getElem?_append_left inside, here] at before
    cases before
    exact ⟨_, read, ⟨rfl, rfl, rfl⟩, fun _ => rfl⟩
  · obtain ⟨m', read⟩ := inBounds_get (show fs.length < fs'.length by omega)
    obtain ⟨m₀, before, rfl⟩ := nodes _ m' read
    rw [List.getElem?_append_right (Nat.le_refl _), Nat.sub_self] at before
    cases before
    exact ⟨_, read, ⟨rfl, rfl, rfl⟩⟩

/-- A call that finds nothing and puts a node for the path behind the others. -/
theorem insert_outcome (linked : Linked fs) (none : FirstMatch env fs path 0 none)
    (fresh : n.next = .none) (copied : n.path = path.bytes) (empty : n.len = 0) :
    ∃ fs', tmpfsInsert (fs ++ [n]) fs.length = .ok fs' ∧ Outcome env fs path fs' fs.length := by
  obtain ⟨fs', inserted, touched, length, n', read, same⟩ := insert_touched linked fresh
  refine ⟨fs', inserted, touched, .inr ⟨?_, rfl, length, n', read, ?_, ?_⟩⟩
  · intro j
    exact none j (Nat.zero_le j)
  · exact same.path.trans copied
  · exact same.len.trans empty

theorem mkdir_outcome (env : Surroundings) (path : CString) (linked : Linked fs) :
    ∃ fs' target, tmpfsMkdir env fs path = .ok fs' ∧ Outcome env fs path fs' target := by
  obtain ⟨r, found, first⟩ := find_first env path linked
  cases r with
  | some i =>
    refine ⟨fs, i, ?_, .stay linked first⟩
    rw [tmpfsMkdir, found]
    rfl
  | none =>
    obtain ⟨fs', inserted, outcome⟩ :=
      insert_outcome (n := ⟨none, none, true, path.bytes, none, 0⟩) linked first rfl rfl rfl
    refine ⟨fs', fs.length, ?_, outcome⟩
    rw [tmpfsMkdir, found]
    exact inserted

theorem findOrCreate_outcome (env : Surroundings) (path : CString) (linked : Linked fs) :
    ∃ fs' target, findOrCreate env fs path = .ok (fs', target) ∧ Outcome env fs path fs' target := by
  obtain ⟨r, found, first⟩ := find_first env path linked
  cases r with
  | some i =>
    refine ⟨fs, i, ?_, .stay linked first⟩
    rw [findOrCreate, found]
    rfl
  | none =>
    obtain ⟨fs', inserted, outcome⟩ :=
      insert_outcome (n := newNode path.bytes) linked first rfl rfl rfl
    refine ⟨fs', fs.length, ?_, outcome⟩
    rw [findOrCreate, found]
    simp only [ok_bind, inserted]
    rfl

/-! ## What a write does to its node -/

structure DataOnly (n n' : TmpfsNode) : Prop extends SameNode n n' where
  next : n'.next = n.next
  prev : n'.prev = n.prev

theorem DataOnly.trans {m : TmpfsNode} (first : DataOnly n n') (second : DataOnly n' m) :
    DataOnly n m :=
  ⟨first.toSameNode.trans second.toSameNode, second.next.trans first.next,
    second.prev.trans first.prev⟩

theorem data_only (n : TmpfsNode) (data : Option (List Byte)) : DataOnly n { n with data } :=
  ⟨⟨rfl, rfl, rfl⟩, rfl, rfl⟩

theorem firstBlock_dataOnly (env : Surroundings) (n : TmpfsNode) : DataOnly n (firstBlock env n) := by
  unfold firstBlock
  split
  · exact data_only n _
  · exact data_only n n.data

theorem extend_dataOnly {stop : Nat} (extended : extend env stop n = .ok n') : DataOnly n n' := by
  unfold extend at extended
  split at extended
  next =>
    obtain ⟨_, _, rest⟩ := bind_ok extended
    obtain ⟨_, _, rest⟩ := bind_ok rest
    cases rest
    exact data_only n _
  next =>
    cases extended
    exact data_only n n.data

theorem storeFile_dataOnly (stored : storeFile env off buf n = .ok n') : DataOnly n n' := by
  obtain ⟨grown, extended, rest⟩ := bind_ok stored
  obtain ⟨_, _, rest⟩ := bind_ok rest
  obtain ⟨data, _, rest⟩ := bind_ok rest
  cases rest
  have reached := (firstBlock_dataOnly env n).trans (extend_dataOnly extended)
  exact reached.trans (data_only grown _)

theorem Outcome.set (outcome : Outcome env fs path fs' target) (here : fs'[target]? = some n)
    (kept : DataOnly n n') : Outcome env fs path (fs'.set target n') target := by
  refine ⟨⟨outcome.linked.set here kept.next kept.prev, ?_⟩, ?_⟩
  · intro i m read
    obtain ⟨m', read', same, data⟩ := outcome.old i m read
    rw [set_same here]
    split
    next hit =>
      subst hit
      cases here.symm.trans read'
      exact ⟨n', rfl, same.trans kept.toSameNode, fun other => absurd rfl other⟩
    next => exact ⟨m', read', same, data⟩
  · rw [List.length_set]
    refine outcome.found.imp_right ?_
    rintro ⟨none, last, length, m, read, made, empty⟩
    cases here.symm.trans read
    refine ⟨none, last, length, n', ?_, kept.path.trans made, kept.len.trans empty⟩
    rw [set_same here, if_pos rfl]

theorem write_outcome (linked : Linked fs) (written : tmpfsWrite env fs path off buf = .ok fs') :
    ∃ target, Outcome env fs path fs' target := by
  obtain ⟨⟨fs₁, target⟩, made, rest⟩ := bind_ok written
  obtain ⟨_, _, made', outcome⟩ := findOrCreate_outcome env path linked
  cases made.symm.trans made'
  obtain ⟨node, bound, rest⟩ := bind_ok rest
  obtain ⟨node', stored, rest⟩ := bind_ok rest
  cases rest
  exact ⟨target, outcome.set (inBounds_some bound) (storeFile_dataOnly stored)⟩

end X86Os.Fs
