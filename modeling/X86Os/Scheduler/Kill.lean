import X86Os.Scheduler.TaskList

/-!
# Killing a task

A killed task stays where it is until it is current when a tick begins. A tick
looks at one task, which it starts or saves, and at the one behind it, to which
it switches. As long as neither of them is killed, a killed task never comes back;
otherwise the scheduler overwrites its state and runs it.
-/

namespace X86Os.Scheduler

open Library.Memory Library.Runs
set_option autoImplicit false

variable {s s' : Sched} {h h' : History} {regs out : Registers} {calls : List MemoryCall}
variable {fuel : Nat} {t task base entry name pid : Word}

/-- The tick meets no killed task but the current one, and that one is not the head. -/
def LiveTurn : Sched × History → KernelCall → Prop
  | (s, _), .tick _ =>
    ((s.tasks s.currentTask).state = .killed → s.currentTask ≠ s.rootTask) ∧
      (s.tasks s.turn).state ≠ .killed ∧
      ((s.tasks s.turn).state = .created ∨ (s.tasks (s.successor s.turn)).state ≠ .killed)
  | _, _ => True

instance : (r : Sched × History) → (a : KernelCall) → Decidable (LiveTurn r a)
  | (s, _), .tick _ => inferInstanceAs (Decidable
      (((s.tasks s.currentTask).state = .killed → s.currentTask ≠ s.rootTask) ∧
        (s.tasks s.turn).state ≠ .killed ∧
        ((s.tasks s.turn).state = .created ∨ (s.tasks (s.successor s.turn)).state ≠ .killed)))
  | _, .init .. | _, .create .. | _, .kill _ => inferInstanceAs (Decidable True)

theorem LiveTurn.headKept {a : KernelCall} (live : LiveTurn (s, h) a) : HeadKept (s, h) a := by
  cases a with
  | tick frame => exact live.1
  | _ => trivial

structure Buried (s : Sched) (h : History) : Prop extends Intact s h where
  idle : ∀ t ∈ h.killed, (s.tasks t).state ≠ .pending ∧ (s.tasks t).state ≠ .running
  listed : ∀ t ∈ h.killed, t ∈ h.tasks → (s.tasks t).state = .killed

theorem Linked.dispatch_passes {l : List Word} (linked : Linked s l)
    (current : s.currentTask ∈ l) (listed : t ∈ l → (s.tasks t).state = .killed)
    (here : (s.tasks s.currentTask).state ≠ .killed)
    (behind : (s.tasks s.currentTask).state = .created ∨
      (s.tasks (s.successor s.currentTask)).state ≠ .killed) :
    (dispatch regs s).1.tasks t = s.tasks t ∧ (dispatch regs s).1.currentTask ≠ t := by
  refine dispatch_frame ?_ (behind.imp_right fun alive => ?_)
  · intro eq
    exact here (eq ▸ listed (eq ▸ current))
  · intro eq
    exact alive (eq ▸ listed (eq ▸ linked.successor_mem current))

namespace Buried

theorem passed (buried : Buried s h) (live : LiveTurn (s, h) (.tick regs))
    (run : sched fuel regs s = .ok (s', out, calls)) (ht : t ∈ h.killed) :
    s'.currentTask ≠ t ∧ ((s'.tasks t).state = (s.tasks t).state ∨
      t = s.currentTask ∧ (s.tasks t).state = .killed ∧ (s'.tasks t).state = .created) := by
  obtain ⟨headKept, here, behind⟩ := live
  have intact := buried.toIntact
  obtain ⟨s₁, notNull, rfl, rfl, ⟨alive, rfl⟩ | ⟨killed, done⟩⟩ := sched_cases run
  · have turn : s.turn = s.currentTask := if_neg alive
    rw [turn] at here behind
    obtain ⟨same, current⟩ := intact.counted.toLinked.dispatch_passes intact.current
      (buried.listed t ht) here behind
    exact ⟨current, .inl (by rw [same]; rfl)⟩
  · have removed := removeKilled_removed killed done
    obtain ⟨linked, current⟩ := intact.remove killed (headKept killed) done notNull
    have turn : s.turn = s₁.currentTask := (if_pos killed).trans removed.currentTask.symm
    rw [turn] at here behind
    have other : ∀ u, u ∈ h.tasks.erase s.currentTask → u ≠ s.currentTask := by
      intro u hu eq
      exact intact.once.not_mem_erase (eq ▸ hu)
    have away := other _ current
    have listed : t ∈ h.tasks.erase s.currentTask → (s₁.tasks t).state = .killed := by
      intro mem
      rw [removed.state (other t mem)]
      exact buried.listed t ht (List.mem_of_mem_erase mem)
    rw [← removed.state away, ← removed.successor away,
      ← removed.state (other _ (linked.successor_mem current))] at behind
    rw [← removed.state away] at here
    obtain ⟨same, passes⟩ := linked.dispatch_passes current listed here behind
    refine ⟨passes, ?_⟩
    rw [same]
    by_cases eq : t = s.currentTask
    · refine .inr ⟨eq, eq ▸ killed, ?_⟩
      rw [eq, removed.erased]
      rfl
    · exact .inl (removed.state eq)

theorem init (live : ∀ t ∈ h.freed, t ≠ 0)
    (idle : ∀ t ∈ h.killed, (s.tasks t).state ≠ .pending ∧ (s.tasks t).state ≠ .running)
    (notNull : task ≠ 0) :
    Buried (schedInit task base entry name s) (h.allocate task [task]) where
  toIntact := .init live notNull
  idle t ht := by
    obtain ⟨earlier, other⟩ := List.mem_filter.mp ht
    have away : t ≠ task := by simpa using other
    simpa [schedInit, Function.update_of_ne away] using idle t earlier
  listed t ht mem := by
    obtain ⟨_, other⟩ := List.mem_filter.mp ht
    have away : t ≠ task := by simpa using other
    exact absurd (List.mem_singleton.mp mem) away

theorem create (buried : Buried s h) (notNull : task ≠ 0) (new : task ∉ h.tasks)
    (run : createTask fuel task base entry name s = .ok s') :
    Buried s' (h.allocate task (h.tasks ++ [task])) := by
  have intact := buried.toIntact.create notNull new run
  obtain ⟨tasks, last, others, _, _, _, _, _, records⟩ := createTask_ok run
  have same : ∀ t, t ≠ task → (s'.tasks t).state = (s.tasks t).state := by
    intro t ht
    rw [records, ← others t ht]
    by_cases eq : t = last
    · rw [eq, Function.update_self]
    · rw [Function.update_of_ne eq]
  refine ⟨intact, ?_, ?_⟩
  · intro t ht
    obtain ⟨earlier, other⟩ := List.mem_filter.mp ht
    rw [same t (by simpa using other)]
    exact buried.idle t earlier
  · intro t ht mem
    obtain ⟨earlier, other⟩ := List.mem_filter.mp ht
    have away : t ≠ task := by simpa using other
    rw [same t away]
    refine buried.listed t earlier ?_
    exact (List.mem_append.mp mem).resolve_right fun new => away (List.mem_singleton.mp new)

theorem kill (buried : Buried s h) (run : killTask fuel pid s = .ok s')
    (found : findTask s.tasks pid fuel s.rootTask = .ok t) :
    Buried s' (if t = 0 then h else { h with killed := t :: h.killed }) := by
  obtain ⟨u, found', eq⟩ := killTask_ok run
  obtain rfl : t = u := by
    rw [found] at found'
    cases found'
    rfl
  split at eq
  next null =>
    rw [if_pos null, eq]
    exact buried
  next notNull =>
    rw [if_neg notNull]
    have marked : (s'.tasks t).state = .killed := by rw [eq, modify_same]
    have others : ∀ u, u ≠ t → s'.tasks u = s.tasks u := by
      intro u hu
      rw [eq, modify_other _ hu]
    refine ⟨buried.toIntact.kill run rfl rfl, ?_, ?_⟩
    · intro u hu
      obtain rfl | here := eq_or_ne u t
      · simp [marked]
      · rw [others u here]
        exact buried.idle u ((List.mem_cons.mp hu).resolve_left here)
    · intro u hu mem
      obtain rfl | here := eq_or_ne u t
      · exact marked
      · rw [others u here]
        exact buried.listed u ((List.mem_cons.mp hu).resolve_left here) mem

theorem tick (buried : Buried s h) (live : LiveTurn (s, h) (.tick regs))
    (run : sched fuel regs s = .ok (s', out, calls)) : Buried s' (h.tick s regs) := by
  refine ⟨buried.toIntact.tick live.headKept run, ?_, ?_⟩
  all_goals
    intro t ht
    rw [History.tick_keeps_killed] at ht
    obtain ⟨_, same | ⟨current, killed, erased⟩⟩ := buried.passed live run ht
  · rw [same]
    exact buried.idle t ht
  · rw [erased]
    exact ⟨nofun, nofun⟩
  · intro mem
    rw [same]
    refine buried.listed t ht ?_
    cases state : (s.tasks s.currentTask).state with
    | killed =>
      rw [History.tick_killed state] at mem
      exact List.mem_of_mem_erase mem
    | _ =>
      rw [History.tick_alive (by rw [state]; nofun)] at mem
      exact mem
  · intro mem
    rw [History.tick_killed (current ▸ killed), ← current] at mem
    exact absurd mem buried.once.not_mem_erase

end Buried

theorem step_buried {a : KernelCall} (buried : Buried s h) (granted : Granted LiveTurn (s, h) a)
    (move : kernel.step (s, h) a (s', h')) : Buried s' h' := by
  obtain ⟨fuel, done⟩ := move
  obtain ⟨fresh, live⟩ := granted
  cases a with
  | init task base idle name =>
    cases done
    exact .init (fun t ht => (buried.freed t ht).1) buried.idle fresh
  | create task base entry name =>
    obtain ⟨s₁, created, rest⟩ := bind_ok done
    cases rest
    exact buried.create fresh.1 fresh.2 created
  | kill pid =>
    obtain ⟨t, found, rest⟩ := bind_ok done
    obtain ⟨s₁, killed, rest⟩ := bind_ok rest
    cases rest
    exact buried.kill killed found
  | tick frame =>
    obtain ⟨⟨s₁, left, calls⟩, ticked, rest⟩ := bind_ok done
    cases rest
    exact buried.tick live ticked

theorem reach_buried (run : kernel.Reach (Granted LiveTurn) (s, h)) : Buried s h := by
  refine run.invariant (I := fun r => Buried r.1 r.2) ?_ ?_
  · rintro _ ⟨records, timerTick, task, base, idle, name, notNull, rfl⟩
    exact .init (by simp [History.empty]) (by simp [History.empty]) notNull
  · intro r a r' _ buried granted move
    exact step_buried buried granted move

/-- A kill is final in every run whose ticks meet no other killed task. -/
theorem kill_final (run : kernel.Reach (Granted LiveTurn) (s, h)) :
    (∀ t ∈ h.killed, (s.tasks t).state ≠ .pending ∧ (s.tasks t).state ≠ .running) ∧
      ∀ frame, LiveTurn (s, h) (.tick frame) → ∀ r, kernel.step (s, h) (.tick frame) r →
        r.1.currentTask ∉ h.killed := by
  have buried := reach_buried run
  refine ⟨buried.idle, ?_⟩
  rintro frame live r ⟨fuel, done⟩ back
  obtain ⟨⟨s₁, left, calls⟩, ticked, rest⟩ := bind_ok done
  cases rest
  exact (buried.passed live ticked back).1 rfl

/-- Task 1 is killed while it is current, and task 2 takes its place. -/
theorem kill_final_removal : ∃ s h, kernel.Reach (Granted LiveTurn) (s, h) ∧ h.killed = [0x7000] ∧
    s.currentTask = 0xD000 ∧ (s.tasks 0x7000).state ≠ .running := by
  have run : (performAll (Granted LiveTurn) 9
      [.create 0x7000 0x8000 0x300 0x400, .create 0xD000 0xE000 0x300 0x400, .tick zeroRegisters,
        .tick zeroRegisters, .kill 1, .tick zeroRegisters] booted).any
      (fun r => decide (r.2.killed = [0x7000] ∧ r.1.currentTask = 0xD000)) = true := by
    decide +kernel
  obtain ⟨s, h, reached, ends⟩ := performAll_ends run
  obtain ⟨killed, current⟩ := of_decide_eq_true ends
  exact ⟨s, h, reached, killed, current,
    ((kill_final reached).1 0x7000 (killed ▸ List.mem_cons_self)).2⟩

/-- Task 1 is killed before its first turn and runs all the same. -/
theorem kill_undone : ∃ s h, kernel.Reach Fresh (s, h) ∧
    ∃ t ∈ h.killed, (s.tasks t).state = .running ∧ s.currentTask = t := by
  have run : (performAll Fresh 9
      [.tick zeroRegisters, .create 0x7000 0x8000 0x300 0x400, .kill 1, .tick zeroRegisters]
      booted).any (fun r => decide (0x7000 ∈ r.2.killed ∧ (r.1.tasks 0x7000).state = .running ∧
        r.1.currentTask = 0x7000)) = true := by decide +kernel
  obtain ⟨s, h, reached, ends⟩ := performAll_ends run
  exact ⟨s, h, reached, 0x7000, of_decide_eq_true ends⟩

end X86Os.Scheduler
