import X86Os.Fs.Calls
import X86Os.Heap.Disjointness
import X86Os.Libc.Strdup

/-!
# The paths that tmpfs keeps

Every node but the root keeps its path in a block that `strdup` filled, and such a
block has no place for the terminator.
-/

namespace X86Os.Fs

open Library.Memory Libc Heap
open Scheduler (bind_ok)
set_option autoImplicit false

/-- Only the root's path, a literal, has its terminator in the block. -/
def TerminatesRoot (fs : Tmpfs) : Prop :=
  ∀ (i : Nat) (n : TmpfsNode), fs[i]? = some n → (0 ∈ n.path ↔ i = 0)

variable {env : Surroundings} {fs fs' : Tmpfs} {path : CString} {target : Nat} {calls : List FileCall}

theorem terminatesRoot_init : TerminatesRoot tmpfsInit := by
  intro i n here
  have inside := (List.getElem?_eq_some_iff.mp here).1
  have length : tmpfsInit.length = 1 := rfl
  obtain rfl : i = 0 := by omega
  cases here
  exact iff_of_true (by decide) rfl

theorem TerminatesRoot.step (before : TerminatesRoot fs) (linked : Linked fs)
    (outcome : Outcome env fs path fs' target) : TerminatesRoot fs' := by
  intro i n here
  obtain ⟨n₀, old, same⟩ | ⟨rfl, copied, _⟩ := outcome.node here
  · rw [same.path]
    exact before i n₀ old
  · rw [copied]
    exact iff_of_false path.terminated linked.root.ne'

theorem performCalls_terminatesRoot (linked : Linked fs) (before : TerminatesRoot fs)
    (run : performCalls calls fs = .ok fs') : TerminatesRoot fs' := by
  induction calls generalizing fs with
  | nil =>
    cases run
    exact before
  | cons c calls ih =>
    obtain ⟨fs₁, first, rest⟩ := bind_ok run
    obtain ⟨_, outcome⟩ := call_outcome linked first
    exact ih outcome.linked (before.step linked outcome) rest

/-- The terminator of a copy never lies in what was allocated for it. A block that happens to be
longer holds the string if a zero stood there before, and `tmpfs` makes no node with such a path. -/
theorem strdup_never_keeps {str : Word} {h : HeapState} {cs : List Byte} (text : IsCString h.mem str cs) :
    (∀ big fuel stale p h', strdup big fuel stale str h = some (p, h') →
      ∃ n h₁, newArray big fuel stale n h = some (p, h₁) ∧ n.toNat = cs.length ∧
        ¬KeepsString h'.mem p n.toNat cs) ∧
    (∀ big fuel stale p h₁, newArray big fuel stale (BitVec.ofNat 32 cs.length) h = some (p, h₁) →
      Spares h.mem h₁.mem str p cs.length →
      ∃ h', strdup big fuel stale str h = some (p, h') ∧ ∀ size : Nat, KeepsString h'.mem p size cs ↔
        cs.length < size ∧ h₁.mem (p + BitVec.ofNat 32 cs.length) = 0) ∧
    ∀ calls fs, performCalls calls tmpfsInit = .ok fs → TerminatesRoot fs := by
  constructor
  · intro big fuel stale p h' run
    obtain ⟨h₁, served⟩ := strdup_asks text run
    refine ⟨_, h₁, served, text.toNat_length, ?_⟩
    rw [text.toNat_length]
    exact not_keepsString
  constructor
  · intro big fuel stale p h₁ served spares
    exact strdup_keeps_iff text served spares
  · intro calls fs run
    exact performCalls_terminatesRoot linked_init terminatesRoot_init run

/-- The string "a" stands at 0x1000, and a 'b' behind the place of its copy. -/
def staleHeap : HeapState :=
  setupRoot sampleRegion ⟨fun x => if x = 0x1000 then chr 'a' else if x = 0x20008D then chr 'b' else 0, 0⟩

theorem staleHeap_text : IsCString staleHeap.mem 0x1000 [chr 'a'] :=
  ⟨by decide +kernel, by decide, by decide +kernel⟩

theorem staleHeap_malloc : ∃ h, newArray sampleRegion 1 0x2000 1 staleHeap = some (0x20008C, h) ∧
    Spares staleHeap.mem h.mem 0x1000 0x20008C 1 ∧ h.mem 0x20008D = chr 'b' := by
  have facts : (newArray sampleRegion 1 0x2000 1 staleHeap).map (fun r =>
      (r.1, r.2.mem 0x1000, r.2.mem 0x1001, r.2.mem 0x20008D)) =
      some (0x20008C, chr 'a', 0, chr 'b') := by decide +kernel
  obtain ⟨⟨p, h⟩, served, values⟩ := Option.map_eq_some_iff.mp facts
  simp only [Prod.mk.injEq] at values
  obtain ⟨rfl, first, second, behind⟩ := values
  refine ⟨h, served, ⟨fun k hk => ?_, fun k hk => ?_⟩, behind⟩
  · obtain rfl | rfl := Nat.le_one_iff_eq_zero_or_eq_one.mp hk
    · exact first.trans (by decide +kernel)
    · exact second.trans (by decide +kernel)
  · obtain rfl | rfl := Nat.le_one_iff_eq_zero_or_eq_one.mp hk <;> decide

/-- The copy of "a" reads as "ab". -/
theorem strdup_reads_on : ∃ h', strdup sampleRegion 1 0x2000 0x1000 staleHeap = some (0x20008C, h') ∧
    h'.mem 0x20008C = chr 'a' ∧ h'.mem 0x20008D = chr 'b' ∧
    ¬IsCString h'.mem 0x20008C [chr 'a'] ∧ ¬KeepsString h'.mem 0x20008C 1 [chr 'a'] := by
  obtain ⟨h, served, spares, stale⟩ := staleHeap_malloc
  obtain ⟨h', run, chars, behind⟩ := strdup_leaves staleHeap_text served spares
  have place : (0x20008C : Word) + BitVec.ofNat 32 [chr 'a'].length = 0x20008D := rfl
  rw [place, stale] at behind
  have lost : ¬KeepsString h'.mem 0x20008C [chr 'a'].length [chr 'a'] := not_keepsString
  refine ⟨h', run, (List.cons.inj chars).1, behind, fun reads => ?_, lost⟩
  have zero := reads.terminated
  rw [place, behind] at zero
  exact absurd zero (by decide)

theorem strdup_never_keeps_a : ∃ h', strdup sampleRegion 1 0x2000 0x1000 staleHeap =
    some (0x20008C, h') ∧ ¬KeepsString h'.mem 0x20008C 1 [chr 'a'] := by
  obtain ⟨never, exactly, _⟩ := strdup_never_keeps staleHeap_text
  obtain ⟨h, served, spares, _⟩ := staleHeap_malloc
  obtain ⟨h', run, _⟩ := exactly _ _ _ _ _ served spares
  obtain ⟨n, _, _, length, lost⟩ := never _ _ _ _ _ run
  rw [length] at lost
  exact ⟨h', run, lost⟩

end X86Os.Fs
