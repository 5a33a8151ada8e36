import X86Os.Scheduler.TaskList

/-!
# What is left to run behind a killed task

`sched` takes the successor of a removed task for the next current one and tests
it for null. The wrap to the root, which an ordinary switch does, is missing
there: behind the last task of the list nothing is left, however many tasks wait
in front of it. The root pointer is not moved, so the first task is not unlinked.
-/

namespace X86Os.Scheduler

open Library.Memory Library.Runs Library.PointerList
set_option autoImplicit false

variable {s s' : Sched} {regs : Registers} {calls : List MemoryCall} {fuel : Nat} {l : List Word}

structure PanicsRightly (fuel : Nat) (regs : Registers) (s : Sched) (l : List Word) : Prop where
  survivor : (∃ t ∈ l, t ≠ s.currentTask ∧ (s.tasks t).state ≠ .killed) →
    ∃ s' out calls, sched fuel regs s = .ok (s', out, calls) ∧
      Linked s' (l.erase s.currentTask) ∧ s'.currentTask ∈ l.erase s.currentTask ∧
      (s.tasks s'.currentTask).state ≠ .killed
  panic : (∃ message, sched fuel regs s = .error (.panic message)) ↔ ∀ t ∈ l, t = s.currentTask

theorem sched_killed (regs : Registers) (linked : Linked s l) (mem : s.currentTask ∈ l)
    (killed : (s.tasks s.currentTask).state = .killed) (enough : l.length < fuel) :
    ∃ s₁ calls, removeKilled fuel (countTick s) = .ok (s₁, calls) ∧ Removed s s₁ ∧
      sched fuel regs s = if s₁.currentTask = 0 then .error (.panic noMoreProcesses)
        else .ok ((dispatch regs s₁).1, (dispatch regs s₁).2, calls) := by
  obtain ⟨tasks, unlinked⟩ :=
    unlinkLoop_returns linked.list linked.once (linked.ne_zero mem) enough
  have removal := removeKilled_eq (s := countTick s) killed unlinked
  refine ⟨_, _, removal, removeKilled_removed killed removal, ?_⟩
  rw [sched, removal]
  rfl

theorem Removed.selects (regs : Registers) (removed : Removed s s') (away : s'.currentTask ≠ s.currentTask)
    (killed : (s.tasks s.currentTask).state = .killed) :
    (dispatch regs s').1.currentTask =
      if (s.tasks s.turn).state = .created then s.turn else s.successor s.turn := by
  have turn : s.turn = s'.currentTask := (if_pos killed).trans removed.currentTask.symm
  rw [dispatch_selects, removed.successor away, removed.state away, turn]

theorem others_remain (linked : Linked s l) (mem : s.currentTask ∈ l)
    (more : (s.tasks s.currentTask).next ≠ 0) :
    (s.tasks s.currentTask).next ∈ l ∧ (s.tasks s.currentTask).next ≠ s.currentTask :=
  ⟨(linked.list.next_mem mem).resolve_left more, linked.next_ne mem⟩

/-- A task in front of others is removed properly, and a live one takes over, if and only if it
is not the first one and the dispatcher comes upon a live task. -/
theorem survivor_iff (regs : Registers) (linked : Linked s l) (mem : s.currentTask ∈ l)
    (killed : (s.tasks s.currentTask).state = .killed) (enough : l.length < fuel)
    (more : (s.tasks s.currentTask).next ≠ 0) :
    (∃ s' out calls, sched fuel regs s = .ok (s', out, calls) ∧
      Linked s' (l.erase s.currentTask) ∧ s'.currentTask ∈ l.erase s.currentTask ∧
      (s.tasks s'.currentTask).state ≠ .killed) ↔
    s.currentTask ≠ s.rootTask ∧ ((s.tasks s.turn).state = .created ∨
      (s.tasks (s.successor s.turn)).state ≠ .killed) := by
  obtain ⟨s₁, calls, removal, removed, ran⟩ := sched_killed regs linked mem killed enough
  have away : s₁.currentTask ≠ s.currentTask := by
    rw [removed.currentTask]
    exact linked.next_ne mem
  rw [if_neg (removed.currentTask ▸ more)] at ran
  have selects := removed.selects regs away killed
  have alive : (s.tasks (dispatch regs s₁).1.currentTask).state ≠ .killed ↔
      ((s.tasks s.turn).state = .created ∨ (s.tasks (s.successor s.turn)).state ≠ .killed) := by
    rw [selects]
    split
    next created => simp [created]
    next began => simp [began]
  constructor
  · rintro ⟨s', out, calls', done, list, _, survives⟩
    cases ran.symm.trans done
    refine ⟨?_, alive.mp survives⟩
    intro root
    -- the root pointer stays on the removed task
    have gone := list.root_mem (by assumption)
    rw [dispatch_rootTask, removed.rootTask, ← root] at gone
    exact linked.once.not_mem_erase gone
  · rintro ⟨notRoot, survives⟩
    have counted : Linked (countTick s) l := linked.congr rfl fun _ _ => rfl
    obtain ⟨list, current⟩ := counted.remove mem notRoot killed removal
    have current := current.resolve_left (removed.currentTask ▸ more)
    refine ⟨_, _, _, ran, list.congr dispatch_rootTask fun t _ => dispatch_next, ?_,
      alive.mpr survives⟩
    rw [dispatch_selects]
    split
    next => exact current
    next => exact list.successor_mem current

/-- A tick that finds its task killed panics for want of tasks and hands over to a live one
otherwise if and only if no task is left, or the killed one is followed by another, and when a
live one is left it is not the first and the dispatcher comes upon a live one. -/
theorem panics_rightly_iff (linked : Linked s l) (mem : s.currentTask ∈ l)
    (killed : (s.tasks s.currentTask).state = .killed) (enough : l.length < fuel) :
    PanicsRightly fuel regs s l ↔
      (∀ t ∈ l, t = s.currentTask) ∨
      (s.tasks s.currentTask).next ≠ 0 ∧
        ((∃ t ∈ l, t ≠ s.currentTask ∧ (s.tasks t).state ≠ .killed) →
          s.currentTask ≠ s.rootTask ∧ ((s.tasks s.turn).state = .created ∨
            (s.tasks (s.successor s.turn)).state ≠ .killed)) := by
  obtain ⟨s₁, calls, _, removed, ran⟩ := sched_killed regs linked mem killed enough
  have panics : (∃ message, sched fuel regs s = .error (.panic message)) ↔
      (s.tasks s.currentTask).next = 0 := by
    rw [ran, removed.currentTask]
    split
    next null => exact iff_of_true ⟨_, rfl⟩ null
    next more => exact iff_of_false (by simp) more
  by_cases last : (s.tasks s.currentTask).next = 0
  · constructor
    · intro rightly
      exact .inl (rightly.panic.mp (panics.mpr last))
    · rintro (alone | ⟨more, _⟩)
      · constructor
        case survivor =>
          rintro ⟨t, ht, other, _⟩
          exact absurd (alone t ht) other
        case panic => exact iff_of_true (panics.mpr last) alone
      · exact absurd last more
  · obtain ⟨behind, other⟩ := others_remain linked mem last
    have company : ¬ ∀ t ∈ l, t = s.currentTask := fun alone => other (alone _ behind)
    have survives := survivor_iff regs linked mem killed enough last
    constructor
    · intro rightly
      exact .inr ⟨last, fun someone => survives.mp (rightly.survivor someone)⟩
    · intro condition
      obtain ⟨_, condition⟩ := condition.resolve_left company
      constructor
      case survivor =>
        intro someone
        exact survives.mpr (condition someone)
      case panic => exact iff_of_false (mt panics.mp last) company

/-- Task 1 is killed between the idle task and a younger one, which takes over. -/
theorem panics_rightly_middle : ∃ s h, kernel.Reach (Granted HeadKept) (s, h) ∧
    h.tasks = [0x1000, 0x7000, 0xD000] ∧ s.currentTask = 0x7000 ∧
    PanicsRightly 9 zeroRegisters s h.tasks := by
  have run : (performAll (Granted HeadKept) 9
      [.create 0x7000 0x8000 0x300 0x400, .create 0xD000 0xE000 0x300 0x400, .tick zeroRegisters,
        .tick zeroRegisters, .kill 1] booted).any
      (fun r => decide (r.2.tasks = [0x1000, 0x7000, 0xD000] ∧ r.1.currentTask = 0x7000 ∧
        (r.1.tasks 0x7000).state = .killed ∧ (r.1.tasks 0x7000).next = 0xD000 ∧
        r.1.rootTask = 0x1000 ∧ (r.1.tasks 0xD000).state = .created)) = true := by decide +kernel
  obtain ⟨s, h, reached, ends⟩ := performAll_ends run
  obtain ⟨listed, current, killed, next, root, created⟩ := of_decide_eq_true ends
  have intact := reach_intact reached
  have enough : h.tasks.length < 9 := by
    rw [listed]
    decide
  refine ⟨s, h, reached, listed, current, ?_⟩
  rw [panics_rightly_iff intact.toLinked intact.current (current ▸ killed) enough]
  have turn : s.turn = 0xD000 := by
    rw [Sched.turn, current, killed, next]
    rfl
  refine .inr ⟨?_, fun _ => ⟨?_, .inl (turn ▸ created)⟩⟩
  · rw [current, next]
    decide
  · rw [current, root]
    decide

/-- Task 1 is killed behind the waiting idle task, and the kernel gives up. -/
theorem panics_early : ¬ ∀ (fuel : Nat) (regs : Registers) (s : Sched) (l : List Word),
    Linked s l → s.currentTask ∈ l → (s.tasks s.currentTask).state = .killed → l.length < fuel →
    PanicsRightly fuel regs s l := by
  intro claim
  have run : (performAll (Granted HeadKept) 9
      [.create 0x7000 0x8000 0x300 0x400, .tick zeroRegisters, .tick zeroRegisters, .kill 1]
      booted).any (fun r => decide (r.2.tasks = [0x1000, 0x7000] ∧ r.1.currentTask = 0x7000 ∧
        (r.1.tasks 0x7000).state = .killed ∧ (r.1.tasks 0x7000).next = 0 ∧
        (r.1.tasks 0x1000).state = .pending)) = true := by decide +kernel
  obtain ⟨s, h, reached, ends⟩ := performAll_ends run
  obtain ⟨listed, current, killed, next, pending⟩ := of_decide_eq_true ends
  have intact := reach_intact reached
  have enough : h.tasks.length < 9 := by
    rw [listed]
    decide
  have rightly := claim 9 zeroRegisters s h.tasks intact.toLinked intact.current
    (current ▸ killed) enough
  have waiting : ∃ t ∈ h.tasks, t ≠ s.currentTask ∧ (s.tasks t).state ≠ .killed := by
    rw [listed, current]
    refine ⟨0x1000, List.mem_cons_self, by decide, ?_⟩
    rw [pending]
    decide
  obtain ⟨s', out, calls, done, _⟩ := rightly.survivor waiting
  obtain ⟨s₁, _, _, removed, ran⟩ := sched_killed zeroRegisters intact.toLinked intact.current
    (current ▸ killed) enough
  rw [removed.currentTask, current, next, if_pos rfl] at ran
  cases ran.symm.trans done

end X86Os.Scheduler
