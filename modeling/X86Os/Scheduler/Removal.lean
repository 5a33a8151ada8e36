import X86Os.Scheduler.History
import X86Os.Scheduler.Interrupt

/-!
# What the removal of a task does to the memory

A record keeps the top of its stack, 16384 bytes behind what `new` returned. The
removal clears as many bytes from there on, so it clears what lies behind the
stack and not the stack, and it frees a pointer that no call of `new` returned.
The block of the stack stays taken.
-/

namespace X86Os.Scheduler

open Library.Memory Library.Runs
set_option autoImplicit false

def MemoryCall.Writes (m : Mem) : MemoryCall → Word → Prop
  | .memset p n, x => Covers p n x
  | .free p, x =>
    x = p - 4 * Heap.sizeofAllocStruct ∧ Heap.checkMagic m x = true ∧ Heap.allocated m x = true

def WritesAny : Mem → List MemoryCall → Word → Prop
  | _, [], _ => False
  | m, call :: calls, x => call.Writes m x ∨ WritesAny (call.apply m) calls x

/-- The bytes of a task: its stack as `new` returned it, its record, and the flags of the blocks
that the two were taken from. -/
def OwnByte (base task stackBlock taskBlock x : Word) : Prop :=
  Covers base stackSize x ∨ Covers task sizeofTaskStruct x ∨ x = stackBlock ∨ x = taskBlock

/-- The removal of the current task returns, writes its own bytes only and frees both blocks. -/
def ReleasesExactly (m : Mem) (s : Sched) (base stackBlock taskBlock : Word) : Prop :=
  ∃ fuel s' calls, removeKilled fuel (countTick s) = .ok (s', calls) ∧
    (∀ x, WritesAny m calls x → OwnByte base s.currentTask stackBlock taskBlock x) ∧
    Heap.allocated (calls.foldl MemoryCall.apply m) stackBlock = false ∧
    Heap.allocated (calls.foldl MemoryCall.apply m) taskBlock = false

/-- What `new` returned for the stack of each record that is in use. -/
abbrev Bases := Word → Option Word

def noteBase (r : Sched × History) : KernelCall → Sched × History → Bases → Bases
  | .init task base _ _, _, bases => Function.update bases task (some base)
  | .create task base _ _, _, bases => Function.update bases task (some base)
  | .kill _, _, bases => bases
  | .tick _, _, bases =>
    if (r.1.tasks r.1.currentTask).state = .killed then Function.update bases r.1.currentTask none
    else bases

def firstBase (r : Sched × History) : Bases :=
  Function.update (fun _ => none) r.1.rootTask
    (some ((r.1.tasks r.1.rootTask).stack - BitVec.ofNat 32 stackSize))

def basedKernel : System ((Sched × History) × Bases) KernelCall := kernel.tracked firstBase noteBase

def Based (s : Sched) (bases : Bases) : Prop :=
  ∀ t base, bases t = some base → (s.tasks t).stack = base + BitVec.ofNat 32 stackSize

variable {s s' : Sched} {h h' : History} {regs out : Registers} {calls : List MemoryCall}
variable {fuel : Nat} {bases bases' : Bases} {t task base entry name stackBlock taskBlock x : Word}
variable {m : Mem} {call : MemoryCall} {kernelCall : KernelCall}

theorem Based.congr (based : Based s bases) (same : ∀ t, (s'.tasks t).stack = (s.tasks t).stack) :
    Based s' bases :=
  fun t base known => (same t).trans (based t base known)

theorem Based.update (based : Based s bases)
    (new : (s'.tasks task).stack = base + BitVec.ofNat 32 stackSize)
    (others : ∀ t, t ≠ task → (s'.tasks t).stack = (s.tasks t).stack) :
    Based s' (Function.update bases task (some base)) := by
  intro t b known
  obtain rfl | other := eq_or_ne t task
  · rw [Function.update_self] at known
    cases known
    exact new
  · rw [Function.update_of_ne other] at known
    exact (others t other).trans (based t b known)

theorem createTask_stack (run : createTask fuel task base entry name s = .ok s') :
    (s'.tasks task).stack = base + BitVec.ofNat 32 stackSize := by
  obtain ⟨last, walked, rest⟩ := bind_ok run
  cases rest
  refine (modify_keeps TaskStruct.stack ?_).trans ?_
  · exact fun _ => rfl
  · simp only [Sched.modify, Function.update_self, fillTask]

theorem schedInit_stack {idle : Word} : ((schedInit task base idle name s).tasks task).stack =
    base + BitVec.ofNat 32 stackSize := by
  simp only [schedInit, Function.update_self]

theorem removeKilled_stack (run : removeKilled fuel s = .ok (s', calls)) (other : t ≠ s.currentTask) :
    (s'.tasks t).stack = (s.tasks t).stack := by
  obtain ⟨_, rfl⟩ | ⟨_, tasks, unlinked, rfl⟩ := removeKilled_cases run
  · rfl
  · dsimp only
    rw [Function.update_of_ne other, unlinkLoop_next_only unlinked]

theorem Based.tick (based : Based s bases) (run : sched fuel regs s = .ok (s', out, calls)) :
    Based s' (if (s.tasks s.currentTask).state = .killed then
      Function.update bases s.currentTask none else bases) := by
  obtain ⟨s₁, _, rfl, _, ⟨alive, rfl⟩ | ⟨killed, removed⟩⟩ := sched_cases run
  · rw [if_neg alive]
    exact based.congr fun t => dispatch_stack
  · rw [if_pos killed]
    intro t b known
    obtain ⟨other, known⟩ := forget_eq_some.mp known
    rw [dispatch_stack, removeKilled_stack removed other]
    exact based t b known

theorem Based.step (based : Based s bases) (run : perform fuel s h kernelCall = .ok (s', h')) :
    Based s' (noteBase (s, h) kernelCall (s', h') bases) := by
  cases kernelCall with
  | init task base idle name =>
    cases run
    exact based.update schedInit_stack fun t other =>
      congrArg TaskStruct.stack (Function.update_of_ne other ..)
  | create task base entry name =>
    obtain ⟨s₁, created, rest⟩ := bind_ok run
    cases rest
    refine based.update (createTask_stack created) fun t other => ?_
    rw [createTask_other created other]
  | kill pid =>
    obtain ⟨found, _, run⟩ := bind_ok run
    obtain ⟨s₁, killed, rest⟩ := bind_ok run
    cases rest
    obtain ⟨u, _, rfl⟩ := killTask_ok killed
    refine based.congr fun t => ?_
    split
    next => rfl
    next => exact modify_keeps TaskStruct.stack fun _ => rfl
  | tick frame =>
    obtain ⟨⟨s₁, out, calls⟩, ticked, rest⟩ := bind_ok run
    cases rest
    exact based.tick ticked

/-- Whatever happens to the list, a record in use keeps the top of the stack that it was given. -/
theorem reach_based {guard : (Sched × History) × Bases → KernelCall → Prop}
    (run : basedKernel.Reach guard ((s, h), bases)) : Based s bases := by
  have kept : ∀ r, basedKernel.Reach guard r → Based r.1.1 r.2 := by
    intro r run
    apply run.invariant (I := fun r => Based r.1.1 r.2)
    · rintro ⟨⟨s, h⟩, bases⟩ ⟨⟨records, tick, task, base, idle, name, _, start⟩, first⟩ t b known
      cases start
      dsimp only at first known ⊢
      have root {s : Sched} : (schedInit task base idle name s).rootTask = task := rfl
      rw [first, firstBase] at known
      simp only [root] at known
      obtain rfl | other := eq_or_ne t task
      · rw [Function.update_self, schedInit_stack, add_sub_cancel_right, Option.some.injEq] at known
        rw [← known]
        exact schedInit_stack
      · rw [Function.update_of_ne other] at known
        cases known
    · rintro ⟨⟨s, h⟩, bases⟩ a ⟨⟨s', h'⟩, bases'⟩ _ based _ ⟨⟨fuel, done⟩, noted⟩
      dsimp only at noted
      rw [noted]
      exact based.step done
  exact kept _ run

theorem removal_calls {top : Word} (killed : (s.tasks s.currentTask).state = .killed)
    (stack : (s.tasks s.currentTask).stack = top)
    (run : removeKilled fuel (countTick s) = .ok (s', calls)) :
    calls = [.memset top stackSize, .free top, .memset s.currentTask sizeofTaskStruct,
      .free s.currentTask] := by
  obtain ⟨alive, _⟩ | ⟨_, tasks, unlinked, _⟩ := removeKilled_cases run
  · exact absurd killed alive
  have kept : (tasks s.currentTask).stack = top := by
    rw [← stack]
    exact congrArg TaskStruct.stack (unlinkLoop_current unlinked)
  have removal := removeKilled_eq (s := countTick s) killed unlinked
  cases removal.symm.trans run
  rw [← kept]
  rfl

/-- No killed task has its memory released, and no more: the removal clears the 16384 bytes
behind its stack. -/
theorem removal_strays (killed : (s.tasks s.currentTask).state = .killed)
    (stack : (s.tasks s.currentTask).stack = base + BitVec.ofNat 32 stackSize) :
    ¬ReleasesExactly m s base stackBlock taskBlock := by
  rintro ⟨fuel, s', calls, run, own, _⟩
  obtain rfl := removal_calls killed stack run
  -- more bytes than the record and the two flags can make up for
  have behind (k : Word) (inside : k.toNat < stackSize) :
      OwnByte base s.currentTask stackBlock taskBlock (base + BitVec.ofNat 32 stackSize + k) :=
    own _ (.inl (covers_add.mpr inside))
  have b0 := behind 0 (by decide)
  have b1 := behind 100 (by decide)
  have b2 := behind 200 (by decide)
  have b3 := behind 300 (by decide)
  simp only [OwnByte, Covers, stackSize, sizeofTaskStruct] at b0 b1 b2 b3
  bv_omega

theorem apply_outside (spared : ¬call.Writes m x) : call.apply m x = m x := by
  cases call with
  | memset p n => exact if_neg spared
  | free p =>
    rw [MemoryCall.apply, Heap.free]
    split
    next magic =>
      split
      next taken =>
        refine store8_other ?_
        rintro rfl
        exact spared ⟨rfl, magic, taken⟩
      next => rfl
    next => rfl

theorem foldl_apply_outside (spared : ¬WritesAny m calls x) : calls.foldl MemoryCall.apply m x = m x := by
  induction calls generalizing m with
  | nil => rfl
  | cons call calls ih =>
    obtain ⟨first, others⟩ := not_or.mp spared
    rw [List.foldl_cons, ih others, apply_outside first]

/-- The flag of the block that the stack was taken from is left as it was. -/
theorem stack_block_kept (killed : (s.tasks s.currentTask).state = .killed)
    (stack : (s.tasks s.currentTask).stack = base + BitVec.ofNat 32 stackSize)
    (handed : base = stackBlock + 4 * Heap.sizeofAllocStruct ∨
      base = Heap.advance stackBlock Heap.sizeofAllocStruct)
    (apart : ¬Covers s.currentTask sizeofTaskStruct stackBlock)
    (other : stackBlock ≠ s.currentTask - 4 * Heap.sizeofAllocStruct)
    (run : removeKilled fuel (countTick s) = .ok (s', calls)) :
    calls.foldl MemoryCall.apply m stackBlock = m stackBlock := by
  obtain rfl := removal_calls killed stack run
  apply foldl_apply_outside
  rintro (cleared | ⟨freed, _⟩ | record | ⟨freed, _⟩ | none)
  · simp only [MemoryCall.Writes, Covers, stackSize] at cleared
    obtain rfl | rfl := handed
    · rw [Heap.sizeofAllocStruct] at cleared
      bv_omega
    · rw [Heap.advance, Heap.sizeofAllocStruct] at cleared
      bv_omega
  · rw [stackSize] at freed
    obtain rfl | rfl := handed
    · rw [Heap.sizeofAllocStruct] at freed
      bv_omega
    · rw [Heap.advance, Heap.sizeofAllocStruct] at freed
      bv_omega
  · exact apart record
  · exact other freed
  · exact none

/-- In no state of any run does the removal of a killed task release exactly its memory. -/
theorem removal_never_exact {guard : (Sched × History) × Bases → KernelCall → Prop}
    (run : basedKernel.Reach guard ((s, h), bases))
    (killed : (s.tasks s.currentTask).state = .killed) (known : bases s.currentTask = some base) :
    ¬ReleasesExactly m s base stackBlock taskBlock :=
  removal_strays killed (reach_based run s.currentTask base known)

/-- The idle task is killed before anything else runs. -/
theorem killed_idle : ∃ s h bases, basedKernel.Reach anyStep ((s, h), bases) ∧
    (s.tasks s.currentTask).state = .killed ∧ bases s.currentTask = some 0x2000 := by
  have start : basedKernel.Reach anyStep (booted, firstBase booted) :=
    .trackedStart ⟨_, _, _, _, _, _, by decide, rfl⟩
  have step : kernel.step booted (.kill 0)
      (booted.1.modify 0x1000 fun t => { t with state := .killed },
        { booted.2 with killed := [0x1000] }) := ⟨2, rfl⟩
  exact ⟨_, _, _, start.trackedNext trivial step, rfl, rfl⟩

theorem removal_never_exact_idle : ∃ s h bases, basedKernel.Reach anyStep ((s, h), bases) ∧
    (s.tasks s.currentTask).state = .killed ∧
    ¬ReleasesExactly (fun _ => 0) s 0x2000 0x1F90 0xF90 := by
  obtain ⟨s, h, bases, run, killed, known⟩ := killed_idle
  exact ⟨s, h, bases, run, killed, removal_never_exact run killed known⟩

/-- Whatever blocks the idle task was given, its memory is not what is released. -/
theorem removal_misses : ∃ s h bases base, basedKernel.Reach anyStep ((s, h), bases) ∧
    (s.tasks s.currentTask).state = .killed ∧ bases s.currentTask = some base ∧
    ∀ m stackBlock taskBlock, ¬ReleasesExactly m s base stackBlock taskBlock := by
  obtain ⟨s, h, bases, run, killed, known⟩ := killed_idle
  refine ⟨s, h, bases, 0x2000, run, killed, known, fun m stackBlock taskBlock => ?_⟩
  exact removal_strays killed (reach_based run s.currentTask 0x2000 known)

end X86Os.Scheduler
