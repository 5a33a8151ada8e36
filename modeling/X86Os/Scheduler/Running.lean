import X86Os.Scheduler.Pids

/-!
# The running task

When only the current task is ever killed, and never the idle task, no killed
task waits: the next tick removes it. So behind every tick the current task is
the only one that is neither created nor pending.
-/

namespace X86Os.Scheduler

open Library.Memory Library.Runs
set_option autoImplicit false

variable {s s' : Sched} {h h' : History} {regs out : Registers} {calls : List MemoryCall}
variable {fuel : Nat} {l : List Word} {t u task base entry name pid : Word}

def TaskStruct.Waits (t : TaskStruct) : Prop := t.state = .created ∨ t.state = .pending

/-- `kill_task` is called for the current task only, and not for the idle task;
`sched_init` is not called again. -/
def OwnKills : Sched × History → KernelCall → Prop
  | _, .init .. => False
  | (s, h), .kill pid =>
    (h.tasks.find? fun t => (s.tasks t).pid = pid) = some s.currentTask ∧ s.currentTask ≠ s.rootTask
  | _, _ => True

instance : (r : Sched × History) → (a : KernelCall) → Decidable (OwnKills r a)
  | _, .init .. => inferInstanceAs (Decidable False)
  | (s, h), .kill pid => inferInstanceAs (Decidable
      ((h.tasks.find? fun t => (s.tasks t).pid = pid) = some s.currentTask ∧
        s.currentTask ≠ s.rootTask))
  | _, .create .. | _, .tick _ => inferInstanceAs (Decidable True)

def getpid (s : Sched) : Word := (s.tasks s.currentTask).pid

/-- System call 0 ends the calling task. -/
def syscallInt (fuel : Nat) (eax : Word) (s : Sched) : Except Halt Sched :=
  if eax = 0 then killTask fuel (getpid s) s else .ok s

structure OneRunning (s : Sched) (l : List Word) : Prop extends Linked s l where
  current : s.currentTask ∈ l
  running : (s.tasks s.currentTask).state = .running
  others : ∀ t ∈ l, t ≠ s.currentTask → (s.tasks t).Waits

structure OthersWait (s : Sched) (h : History) : Prop extends Intact s h where
  idle_spared : (s.tasks s.rootTask).state ≠ .killed
  others : ∀ t ∈ h.tasks, t ≠ s.currentTask → (s.tasks t).Waits

/-- While pids identify tasks, a system call does nothing or kills the current task. -/
theorem syscallInt_own {eax : Word} {given : List Word} (numbered : Numbered s h given)
    (notRoot : s.currentTask ≠ s.rootTask) (run : syscallInt fuel eax s = .ok s') :
    s' = s ∨ OwnKills (s, h) (.kill (getpid s)) ∧ killTask fuel (getpid s) s = .ok s' := by
  rw [syscallInt] at run
  split at run
  · exact .inr ⟨⟨find?_pid numbered.distinct numbered.current, notRoot⟩, run⟩
  · exact .inl (Except.ok.inj run).symm

theorem dispatch_waits (others : ∀ t ∈ l, t ≠ s.currentTask → (s.tasks t).Waits) (ht : t ∈ l)
    (left : t ≠ (dispatch regs s).1.currentTask) : ((dispatch regs s).1.tasks t).Waits := by
  rw [dispatch_selects] at left
  obtain ⟨created, eq⟩ | ⟨began, switched⟩ := dispatch_cases regs s
  · rw [if_pos created] at left
    have same : (dispatch regs s).1.tasks t = s.tasks t := by
      rw [eq]
      simp [startCurrent, modify_other _ left]
    rw [same]
    exact others t ht left
  · rw [if_neg began] at left
    have same : (dispatch regs s).1.tasks t = (switchAway regs s).tasks t := by
      obtain ⟨_, eq⟩ | ⟨_, eq⟩ := switched
      all_goals
        rw [eq]
        simp [startCurrent, resumeCurrent, modify_other _ left]
    rw [same]
    obtain rfl | away := eq_or_ne t s.currentTask
    · rw [switchAway_same]
      exact .inr rfl
    · rw [switchAway_other away]
      exact others t ht away

namespace OthersWait

theorem init (notNull : task ≠ 0) :
    OthersWait (schedInit task base entry name s) (History.empty.allocate task [task]) where
  toIntact := .init (by simp [History.empty]) notNull
  idle_spared := by simp [schedInit]
  others t ht other := absurd (List.mem_singleton.mp ht) other

theorem create (wait : OthersWait s h) (notNull : task ≠ 0) (new : task ∉ h.tasks)
    (run : createTask fuel task base entry name s = .ok s') :
    OthersWait s' (h.allocate task (h.tasks ++ [task])) := by
  obtain ⟨_, _, created⟩ := createTask_new run
  obtain ⟨_, _, _, _, _, _, root, current, _⟩ := createTask_ok run
  refine ⟨wait.toIntact.create notNull new run, ?_, ?_⟩
  · have old : s.rootTask ≠ task := by
      rintro rfl
      exact new (wait.toLinked.root_mem wait.current)
    rw [root, createTask_other run old]
    exact wait.idle_spared
  · intro t ht other
    rw [current] at other
    obtain rfl | old := eq_or_ne t task
    · exact .inl created
    · have listed : t ∈ h.tasks :=
        (List.mem_append.mp ht).resolve_right fun eq => old (List.mem_singleton.mp eq)
      rw [TaskStruct.Waits, createTask_other run old]
      exact wait.others t listed other

theorem kill (wait : OthersWait s h) (own : OwnKills (s, h) (.kill pid))
    (run : killTask fuel pid s = .ok s') (tasks : h'.tasks = h.tasks) (freed : h'.freed = h.freed) :
    OthersWait s' h' := by
  have intact := wait.toIntact.kill run tasks freed
  obtain ⟨t, found, eq⟩ := killTask_ok run
  obtain ⟨hit, notRoot⟩ := own
  split at eq
  next =>
    subst eq
    exact ⟨intact, wait.idle_spared, tasks ▸ wait.others⟩
  next notNull =>
    obtain rfl : t = s.currentTask := by
      rw [findTask_hit wait.list found notNull] at hit
      exact Option.some.inj hit
    subst eq
    refine ⟨intact, ?_, ?_⟩
    · rw [modify_rootTask, modify_other _ notRoot.symm]
      exact wait.idle_spared
    · intro u hu other
      have away : u ≠ s.currentTask := other
      rw [modify_other _ away]
      exact wait.others u (tasks ▸ hu) away

theorem tick (wait : OthersWait s h) (run : sched fuel regs s = .ok (s', out, calls)) :
    OthersWait s' (h.tick s regs) ∧ (s'.tasks s'.currentTask).state = .running := by
  have headKept : HeadKept (s, h) (.tick regs) := by
    intro killed head
    exact wait.idle_spared (head ▸ killed)
  have intact := wait.toIntact.tick headKept run
  obtain ⟨s₁, _, rfl, _, ⟨alive, rfl⟩ | ⟨killed, done⟩⟩ := sched_cases run
  · have tasks : (h.tick s regs).tasks = h.tasks := by rw [History.tick_alive alive]
    refine ⟨⟨intact, ?_, ?_⟩, dispatch_running⟩
    · rw [dispatch_rootTask]
      exact dispatch_alive (s := countTick s) wait.idle_spared
    · intro t ht
      exact dispatch_waits (s := countTick s) wait.others (tasks ▸ ht)
  · have removed := removeKilled_removed killed done
    have tasks : (h.tick s regs).tasks = h.tasks.erase s.currentTask := by
      rw [History.tick_killed killed]
    refine ⟨⟨intact, ?_, ?_⟩, dispatch_running⟩
    · rw [dispatch_rootTask, removed.rootTask]
      exact dispatch_alive ((removed.state (headKept killed).symm).trans_ne wait.idle_spared)
    · intro t ht
      refine dispatch_waits (l := (h.tick s regs).tasks) ?_ ht
      intro u hu _
      have away : u ≠ s.currentTask := by
        rintro rfl
        rw [tasks] at hu
        exact wait.once.not_mem_erase hu
      rw [TaskStruct.Waits, removed.state away]
      exact wait.others u (List.mem_of_mem_erase (tasks ▸ hu)) away

end OthersWait

theorem step_othersWait {a : KernelCall} (wait : OthersWait s h) (granted : Granted OwnKills (s, h) a)
    (move : kernel.step (s, h) a (s', h')) : OthersWait s' h' := by
  obtain ⟨fuel, done⟩ := move
  obtain ⟨fresh, own⟩ := granted
  cases a with
  | init task base idle name => exact absurd own not_false
  | create task base entry name =>
    obtain ⟨s₁, created, rest⟩ := bind_ok done
    cases rest
    exact wait.create fresh.1 fresh.2 created
  | kill pid =>
    obtain ⟨t, _, rest⟩ := bind_ok done
    obtain ⟨s₁, killed, rest⟩ := bind_ok rest
    cases rest
    refine wait.kill own killed ?_ ?_
    all_goals split <;> rfl
  | tick frame =>
    obtain ⟨⟨s₁, left, calls⟩, ticked, rest⟩ := bind_ok done
    cases rest
    exact (wait.tick ticked).1

theorem reach_othersWait (run : kernel.Reach (Granted OwnKills) (s, h)) : OthersWait s h := by
  refine run.invariant (I := fun r => OthersWait r.1 r.2) ?_ ?_
  · rintro _ ⟨records, timerTick, task, base, idle, name, notNull, rfl⟩
    exact .init notNull
  · intro r a r' _ wait granted move
    exact step_othersWait wait granted move

/-- Behind every tick the current task runs and every other task waits. -/
theorem one_running {frame : Registers} (run : kernel.Reach (Granted OwnKills) (s, h))
    (move : kernel.step (s, h) (.tick frame) (s', h')) : OneRunning s' h'.tasks := by
  obtain ⟨fuel, done⟩ := move
  obtain ⟨⟨s₁, left, calls⟩, ticked, rest⟩ := bind_ok done
  cases rest
  obtain ⟨wait, running⟩ := (reach_othersWait run).tick ticked
  exact ⟨wait.toLinked, wait.current, running, wait.others⟩

/-- Task 1 ends itself, and the task behind it has its first turn. -/
theorem one_running_behind : ∃ s h s' h', kernel.Reach (Granted OwnKills) (s, h) ∧
    kernel.step (s, h) (.tick zeroRegisters) (s', h') ∧ s'.currentTask = 0xD000 ∧
    OneRunning s' [0x1000, 0xD000] := by
  have run : (performAll (Granted OwnKills) 9
      [.create 0x7000 0x8000 0x300 0x400, .create 0xD000 0xE000 0x300 0x400, .tick zeroRegisters,
        .tick zeroRegisters, .kill 1] booted).any (fun r =>
      (perform 9 r.1 r.2 (.tick zeroRegisters)).toOption.any fun r =>
        decide (r.1.currentTask = 0xD000 ∧ r.2.tasks = [0x1000, 0xD000])) = true := by
    decide +kernel
  obtain ⟨s, h, reached, ticked⟩ := performAll_ends run
  cases done : perform 9 s h (.tick zeroRegisters) with
  | error e => simp [done, Except.toOption] at ticked
  | ok r =>
    simp only [done, Except.toOption, Option.any_some, decide_eq_true_eq] at ticked
    have move : kernel.step (s, h) (.tick zeroRegisters) (r.1, r.2) := ⟨9, done⟩
    exact ⟨s, h, r.1, r.2, reached, move, ticked.1, ticked.2 ▸ one_running reached move⟩

end X86Os.Scheduler
