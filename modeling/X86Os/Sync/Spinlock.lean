import X86Os.Library.Memory
import X86Os.Library.Threads

/-!
# The spinlock of base/core/spinlock.cpp

`spinlock_acquire` gives up after a hundred million failed tests, and then it
only writes a message: it returns as if the lock had been taken, and the caller
goes on to release it. Every thread that gives up can let one more thread in.
-/

namespace X86Os.Sync

open Library.Memory Library.Runs Library.Threads
set_option autoImplicit false

structure Spinlock where
  lock : Int
  lastAcquirer : Word

def spinlockInit : Spinlock := ⟨0, 0⟩

inductive Pc
  | outside
  | testing (deadlockCounter : Nat) (ret : Word)
  | storing (ret : Word)
  | inside (ret : Word)
  | releasing

inductive Access
  | call (ret : Word)
  | testAndAcq
  | storeAcquirer
  | clearAcquirer
  | clearLock

def deadlockLimit : Nat := 100000000

/-- An access that is not the next one of the thread is not a step. -/
def exec : Access → Spinlock → Pc → Option (Spinlock × Pc)
  | .call ret, sp, .outside => some (sp, .testing 0 ret)
  | .testAndAcq, sp, .testing deadlockCounter ret =>
    if sp.lock = 0 then some ({ sp with lock := 1 }, .storing ret)
    else if deadlockLimit ≤ deadlockCounter + 1 then some (sp, .inside ret)
    else some (sp, .testing (deadlockCounter + 1) ret)
  | .storeAcquirer, sp, .storing ret => some ({ sp with lastAcquirer := ret }, .inside ret)
  | .clearAcquirer, sp, .inside _ => some ({ sp with lastAcquirer := 0 }, .releasing)
  | .clearLock, sp, .releasing => some ({ sp with lock := 0 }, .outside)
  | _, _, _ => none

/-- From the end of the last test to the store that frees the lock. -/
def Pc.critical : Pc → ℕ
  | .outside | .testing .. => 0
  | .storing _ | .inside _ | .releasing => 1

inductive Move : Access → Spinlock → Pc → Spinlock → Pc → Prop
  | call (ret : Word) (sp : Spinlock) : Move (.call ret) sp .outside sp (.testing 0 ret)
  | take (n : ℕ) (ret acquirer : Word) :
      Move .testAndAcq ⟨0, acquirer⟩ (.testing n ret) ⟨1, acquirer⟩ (.storing ret)
  | giveUp {sp : Spinlock} {n : ℕ} (ret : Word) (taken : sp.lock ≠ 0) (last : deadlockLimit ≤ n + 1) :
      Move .testAndAcq sp (.testing n ret) sp (.inside ret)
  | retry {sp : Spinlock} {n : ℕ} (ret : Word) (taken : sp.lock ≠ 0) (early : n + 1 < deadlockLimit) :
      Move .testAndAcq sp (.testing n ret) sp (.testing (n + 1) ret)
  | store (sp : Spinlock) (ret : Word) :
      Move .storeAcquirer sp (.storing ret) ⟨sp.lock, ret⟩ (.inside ret)
  | clear (sp : Spinlock) (ret : Word) : Move .clearAcquirer sp (.inside ret) ⟨sp.lock, 0⟩ .releasing
  | release (sp : Spinlock) : Move .clearLock sp .releasing ⟨0, sp.lastAcquirer⟩ .outside

theorem move_of_exec {a : Access} {sp : Spinlock} {pc : Pc} {r : Spinlock × Pc}
    (moved : exec a sp pc = some r) : Move a sp pc r.1 r.2 := by
  unfold exec at moved
  split at moved
  · cases moved
    exact .call _ _
  · split_ifs at moved with free last
    · cases moved
      obtain ⟨lock, acquirer⟩ := sp
      obtain rfl : lock = 0 := free
      exact .take _ _ _
    · cases moved
      exact .giveUp _ free last
    · cases moved
      exact .retry _ free (Nat.lt_of_not_le last)
  · cases moved
    exact .store _ _
  · cases moved
    exact .clear _ _
  · cases moved
    exact .release _
  · cases moved

def givesUp : Access → Spinlock → Pc → Bool
  | .testAndAcq, sp, .testing deadlockCounter _ =>
    decide (sp.lock ≠ 0) && decide (deadlockLimit ≤ deadlockCounter + 1)
  | _, _, _ => false

variable {ι : Type} [DecidableEq ι]

def spinlockRuns : System (Config ι Spinlock Pc × ℕ) (ι × Access) :=
  (interleave (· = spinlockInit) .outside exec).tracked (fun _ => 0)
    fun c a _ deadlocks => if givesUp a.2 c.shared (c.thread a.1) then deadlocks + 1 else deadlocks

/-- The lock counts one of the threads that are inside, and every acquisition that gave up may
have brought in one more. -/
def Counted (lock : Int) (inside deadlocks : ℕ) : Prop :=
  (lock = 0 ∨ lock = 1) ∧ lock ≤ inside ∧ (inside : Int) ≤ lock + deadlocks

theorem Move.counted {a : Access} {sp sp' : Spinlock} {pc pc' : Pc} (move : Move a sp pc sp' pc')
    {inside inside' deadlocks : ℕ} (counted : Counted sp.lock inside deadlocks)
    (change : inside' + pc.critical = inside + pc'.critical) :
    Counted sp'.lock inside' (if givesUp a sp pc then deadlocks + 1 else deadlocks) := by
  obtain ⟨bit, held, few⟩ := counted
  have quiet (goesOn : givesUp a sp pc = false) (lock : sp'.lock = sp.lock)
      (stays : pc'.critical = pc.critical) :
      Counted sp'.lock inside' (if givesUp a sp pc then deadlocks + 1 else deadlocks) := by
    rw [goesOn, lock, show inside' = inside by omega]
    exact ⟨bit, held, few⟩
  cases move with
  | call ret => exact quiet rfl rfl rfl
  | take n ret acquirer =>
    rw [Pc.critical, Pc.critical] at change
    rw [show givesUp .testAndAcq ⟨0, acquirer⟩ (.testing n ret) = false from rfl,
      if_neg Bool.false_ne_true]
    dsimp only at held few ⊢
    exact ⟨.inr rfl, by omega, by omega⟩
  | @giveUp _ n ret taken last =>
    rw [Pc.critical, Pc.critical] at change
    rw [show givesUp .testAndAcq sp (.testing n ret) = true by simp [givesUp, taken, last], if_pos rfl]
    exact ⟨bit, by omega, by omega⟩
  | retry ret taken early => exact quiet (by simp [givesUp, early]) rfl rfl
  | store ret => exact quiet rfl rfl rfl
  | clear ret => exact quiet rfl rfl rfl
  | release =>
    rw [Pc.critical, Pc.critical] at change
    rw [show givesUp .clearLock sp .releasing = false from rfl, if_neg Bool.false_ne_true]
    dsimp only
    exact ⟨.inl rfl, by omega, by omega⟩

section runs

variable {c : Config ι Spinlock Pc} {deadlocks : ℕ}
  {guard : Config ι Spinlock Pc × ℕ → ι × Access → Prop}

theorem counted_of_run [Fintype ι] (run : spinlockRuns.Reach guard (c, deadlocks)) :
    Counted c.shared.lock (c.tally Pc.critical) deadlocks := by
  apply run.invariant (I := fun s => Counted s.1.shared.lock (s.1.tally Pc.critical) s.2)
  · rintro ⟨c, d⟩ ⟨⟨free, outside⟩, none_⟩
    dsimp only at free outside none_ ⊢
    rw [none_, free, Config.tally_eq_zero.mpr fun i => by rw [outside i]; rfl]
    exact ⟨.inl rfl, le_rfl, le_rfl⟩
  · rintro ⟨c, d⟩ ⟨i, a⟩ ⟨c', d'⟩ _ counted _ ⟨⟨r, moved, after⟩, history⟩
    dsimp only at moved after history counted ⊢
    rw [history, after]
    exact (move_of_exec moved).counted counted (c.tally_put Pc.critical)

/-- In every interleaving the threads between a successful acquisition and the release of the lock
are at most one more than the acquisitions that gave up; with a free lock they are no more than
these, and a lock that is taken is the lock of some thread. -/
theorem spinlock_exclusion [Fintype ι] (run : spinlockRuns.Reach anyStep (c, deadlocks)) :
    c.tally Pc.critical ≤ deadlocks + 1 ∧ (c.shared.lock = 0 → c.tally Pc.critical ≤ deadlocks) ∧
      (c.shared.lock ≠ 0 → ∃ i, (c.thread i).critical = 1) := by
  obtain ⟨bit, held, few⟩ := counted_of_run run
  refine ⟨by omega, fun free => by omega, fun taken => ?_⟩
  by_contra nobody
  have none_ : c.tally Pc.critical = 0 := by
    apply Config.tally_eq_zero.mpr
    intro i
    cases pc : c.thread i with
    | outside => rfl
    | testing n ret => rfl
    | storing ret => exact absurd ⟨i, by rw [pc]; rfl⟩ nobody
    | inside ret => exact absurd ⟨i, by rw [pc]; rfl⟩ nobody
    | releasing => exact absurd ⟨i, by rw [pc]; rfl⟩ nobody
  omega

/-! ### Without deadlocks -/

/-- What the lock shows as its last acquirer while the thread is inside. -/
def Pc.shown : Pc → Word
  | .inside ret => ret
  | _ => 0

def patient (s : Config ι Spinlock Pc × ℕ) (a : ι × Access) : Prop :=
  givesUp a.2 s.1.shared (s.1.thread a.1) = false

/-- The lock is free and nobody is inside, or it is taken by the one thread inside. -/
abbrev Owned (c : Config ι Spinlock Pc) : Prop :=
  Exclusive (fun pc => pc.critical = 1) (· = spinlockInit) (fun sp pc => sp = ⟨1, pc.shown⟩) c

theorem Owned.move {i : ι} {a : Access} {sp sp' : Spinlock} {pc pc' : Pc} (owned : Owned c)
    (shared : c.shared = sp) (before : c.thread i = pc) (goesOn : givesUp a sp pc = false)
    (move : Move a sp pc sp' pc') : Owned (c.put i (sp', pc')) := by
  have apart (out : pc.critical ≠ 1) : (c.thread i).critical ≠ 1 := by rwa [before]
  have mine (inside : pc.critical = 1) : (c.thread i).critical = 1 := by rwa [before]
  cases move with
  | call ret =>
    exact owned.outside (apart Nat.zero_ne_one) Nat.zero_ne_one (shared ▸ id) fun _ => shared ▸ id
  | take n ret acquirer =>
    obtain ⟨nobody, free⟩ | ⟨k, _, _, taken⟩ := owned
    · obtain rfl : acquirer = 0 := congrArg Spinlock.lastAcquirer (shared.symm.trans free)
      exact Exclusive.of_put (fun j _ => nobody j) rfl rfl
    · have one := congrArg Spinlock.lock (shared.symm.trans taken)
      exact absurd one zero_ne_one
  | giveUp ret taken last =>
    rw [givesUp, decide_eq_true taken, decide_eq_true last] at goesOn
    cases goesOn
  | retry ret taken early =>
    exact owned.outside (apart Nat.zero_ne_one) Nat.zero_ne_one (shared ▸ id) fun _ => shared ▸ id
  | store ret =>
    apply Exclusive.inside owned (mine rfl) rfl
    rw [shared, before]
    rintro rfl
    rfl
  | clear ret =>
    apply Exclusive.inside owned (mine rfl) rfl
    rw [shared, before]
    rintro rfl
    rfl
  | release =>
    refine Exclusive.release owned (mine rfl) Nat.zero_ne_one ?_
    rw [shared, before]
    rintro rfl
    rfl

def twoOutside : Config Bool Spinlock Pc := ⟨spinlockInit, fun _ => .outside⟩

/-- The first of them calls, tests the lock and stores its return address. -/
def heldByFirst : Config Bool Spinlock Pc :=
  ((twoOutside.put true (spinlockInit, .testing 0 0x100)).put true (⟨1, 0⟩, .storing 0x100)).put true
    (⟨1, 0x100⟩, .inside 0x100)

theorem run_heldByFirst : spinlockRuns.Reach patient (heldByFirst, 0) := by
  have idle : spinlockRuns.Reach patient (twoOutside, 0) := .start ⟨⟨rfl, fun _ => rfl⟩, rfl⟩
  have called : spinlockRuns.Reach patient
      (twoOutside.put true (spinlockInit, .testing 0 0x100), 0) :=
    idle.next (a := (true, .call 0x100)) (by rfl) ⟨⟨_, rfl, rfl⟩, rfl⟩
  have taken : spinlockRuns.Reach patient
      ((twoOutside.put true (spinlockInit, .testing 0 0x100)).put true (⟨1, 0⟩, .storing 0x100), 0) :=
    called.next (a := (true, .testAndAcq)) (by rfl) ⟨⟨_, rfl, rfl⟩, rfl⟩
  exact taken.next (a := (true, .storeAcquirer)) (by rfl) ⟨⟨_, rfl, rfl⟩, rfl⟩

theorem spinlock_exclusion_of_first : heldByFirst.tally Pc.critical ≤ 1 ∧
    (heldByFirst.shared.lock = 0 → heldByFirst.tally Pc.critical ≤ 0) ∧
      (heldByFirst.shared.lock ≠ 0 → ∃ i, (heldByFirst.thread i).critical = 1) :=
  spinlock_exclusion run_heldByFirst.any

/-- As long as no acquisition gives up, at most one thread is inside in every interleaving, and the
lock tells which: its last acquirer is the return address of the thread in the critical section,
and it is cleared whenever no thread is there. -/
theorem spinlock_last_acquirer (run : spinlockRuns.Reach patient (c, deadlocks)) :
    (∀ i j, (c.thread i).critical = 1 → (c.thread j).critical = 1 → i = j) ∧
      (∀ i, (c.thread i).critical = 1 → c.shared = ⟨1, (c.thread i).shown⟩) ∧
        ((∀ i, (c.thread i).critical ≠ 1) → c.shared = spinlockInit) := by
  have owned : Owned c := by
    apply run.invariant (I := fun s => Owned s.1)
    · rintro ⟨c, d⟩ ⟨⟨free, outside⟩, _⟩
      refine .inl ⟨fun i => ?_, free⟩
      rw [show (c.thread i) = .outside from outside i]
      exact Nat.zero_ne_one
    · rintro ⟨c, d⟩ ⟨i, a⟩ ⟨c', d'⟩ _ owned goesOn ⟨⟨r, moved, after⟩, _⟩
      dsimp only at moved after owned ⊢
      rw [after]
      exact Owned.move owned rfl rfl goesOn (move_of_exec moved)
  exact ⟨fun i j => owned.unique, fun i inside => (owned.of_holds inside).2, owned.of_nobody⟩

theorem spinlock_last_acquirer_of_first :
    (∀ i j, (heldByFirst.thread i).critical = 1 → (heldByFirst.thread j).critical = 1 → i = j) ∧
      (∀ i, (heldByFirst.thread i).critical = 1 → heldByFirst.shared = ⟨1, (heldByFirst.thread i).shown⟩) ∧
        ((∀ i, (heldByFirst.thread i).critical ≠ 1) → heldByFirst.shared = spinlockInit) :=
  spinlock_last_acquirer run_heldByFirst

end runs

end X86Os.Sync
