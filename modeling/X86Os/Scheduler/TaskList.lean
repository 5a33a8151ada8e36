import X86Os.Scheduler.History

/-!
# Integrity of the task list

As long as no tick removes the task at the head, the list from `root_task` holds
the created tasks that were not removed, in the order of their creation, and
nothing that the scheduler follows points to a freed record. Removing the head
leaves `root_task` on the freed record.
-/

namespace X86Os.Scheduler

open Library.Memory Library.Runs Library.PointerList
set_option autoImplicit false

variable {s s' : Sched} {h h' : History} {regs out : Registers} {calls : List MemoryCall}
variable {fuel : Nat} {l : List Word} {t u task base entry name pid : Word}

structure Linked (s : Sched) (l : List Word) : Prop where
  list : Chain (fun t => (s.tasks t).next) 0 s.rootTask l
  once : l.Nodup

structure TaskList (s : Sched) (h : History) : Prop extends Linked s h.tasks where
  current : s.currentTask ∈ h.tasks
  root_live : s.rootTask ∉ h.freed
  current_live : s.currentTask ∉ h.freed
  next_live : ∀ t ∈ h.tasks, (s.tasks t).next ∉ h.freed

structure Intact (s : Sched) (h : History) : Prop extends Linked s h.tasks where
  current : s.currentTask ∈ h.tasks
  freed : ∀ t ∈ h.freed, t ≠ 0 ∧ t ∉ h.tasks

namespace Linked

theorem congr (linked : Linked s l) (root : s'.rootTask = s.rootTask)
    (links : ∀ t ∈ l, (s'.tasks t).next = (s.tasks t).next) : Linked s' l :=
  ⟨root ▸ linked.list.congr links, linked.once⟩

theorem root_mem (linked : Linked s l) (ht : t ∈ l) : s.rootTask ∈ l := by
  rw [linked.list.head_eq]
  cases l with
  | nil => cases ht
  | cons a l => exact List.mem_cons_self

theorem ne_zero (linked : Linked s l) (ht : t ∈ l) : t ≠ 0 := by
  intro zero
  exact linked.list.null_notMem (zero ▸ ht)

theorem successor_mem (linked : Linked s l) (ht : t ∈ l) : s.successor t ∈ l := by
  unfold Sched.successor
  split
  next => exact linked.root_mem ht
  next more => exact (linked.list.next_mem ht).resolve_left more

theorem next_ne (linked : Linked s l) (ht : t ∈ l) : (s.tasks t).next ≠ t := by
  obtain ⟨l₁, l₂, rfl⟩ := List.append_of_mem ht
  have off : t ∉ l₂ := (List.nodup_cons.mp (List.nodup_append.mp linked.once).2.1).1
  rw [linked.list.next_eq]
  cases l₂ with
  | nil => exact (linked.ne_zero ht).symm
  | cons b l₂ =>
    intro eq
    exact off (eq ▸ List.mem_cons_self)

end Linked

theorem unlinkLoop_chain {tasks tasks' : Word → TaskStruct} {p a c : Word} {l₁ l₂ : List Word}
    (list : Chain (fun t => (tasks t).next) 0 p (l₁ ++ a :: c :: l₂))
    (once : (l₁ ++ a :: c :: l₂).Nodup) (run : unlinkLoop c fuel tasks p = .ok tasks') :
    Chain (fun t => (Function.update tasks' c zeroTask t).next) 0 p (l₁ ++ a :: l₂) := by
  have points : (tasks a).next = c := list.next_eq
  rw [unlinkLoop_unlinks list once run]
  have distinct := once
  simp only [List.nodup_append, List.nodup_cons, List.mem_cons, not_or] at distinct
  obtain ⟨_, ⟨⟨away, aOff⟩, cOff, _⟩, before⟩ := distinct
  refine list.unlink ?_ ?_
  · intro b hb
    have hbc : b ≠ c := by
      intro eq
      obtain left | right := List.mem_append.mp hb
      · exact before b left c (.inr (.inl rfl)) eq
      · exact cOff (eq ▸ right)
    have hba : b ≠ a := by
      intro eq
      obtain left | right := List.mem_append.mp hb
      · exact before b left a (.inl rfl) eq
      · exact aOff (eq ▸ right)
    rw [Function.update_of_ne hbc, unlinkAt_other hba]
  · rw [Function.update_of_ne away, unlinkAt_same points]

theorem Linked.remove (linked : Linked s l)
    (mem : s.currentTask ∈ l) (notRoot : s.currentTask ≠ s.rootTask)
    (killed : (s.tasks s.currentTask).state = .killed) (run : removeKilled fuel s = .ok (s', calls)) :
    Linked s' (l.erase s.currentTask) ∧
      (s'.currentTask = 0 ∨ s'.currentTask ∈ l.erase s.currentTask) := by
  obtain ⟨alive, _⟩ | ⟨_, tasks, unlinked, eq⟩ := removeKilled_cases run
  · exact absurd killed alive
  obtain ⟨l₁, l₂, rfl⟩ := List.append_of_mem mem
  obtain rfl | ⟨l₁, a, rfl⟩ := l₁.eq_nil_or_concat'
  · exact absurd linked.list.head_eq.symm notRoot
  have off : s.currentTask ∉ l₁ ++ [a] := by
    intro early
    exact List.disjoint_of_nodup_append linked.once early List.mem_cons_self
  have behind := linked.list.next_eq
  have shorter := linked.once.erase s.currentTask
  rw [List.erase_append_right _ off, List.erase_cons_head] at shorter ⊢
  obtain ⟨list, once⟩ := linked
  simp only [List.append_assoc, List.singleton_append] at list once shorter ⊢
  rw [eq]
  refine ⟨⟨unlinkLoop_chain list once unlinked, shorter⟩, ?_⟩
  rw [unlinkLoop_current unlinked, behind]
  cases l₂ with
  | nil => exact .inl rfl
  | cons b l₂ => exact .inr (by simp)

/-- The tick that goes wrong removes the head of the list. -/
def HeadKept : Sched × History → KernelCall → Prop
  | (s, _), .tick _ =>
    (s.tasks s.currentTask).state = .killed → s.currentTask ≠ s.rootTask
  | _, _ => True

instance : (r : Sched × History) → (a : KernelCall) → Decidable (HeadKept r a)
  | (s, _), .tick _ => inferInstanceAs
      (Decidable ((s.tasks s.currentTask).state = .killed → s.currentTask ≠ s.rootTask))
  | _, .init .. | _, .create .. | _, .kill _ => inferInstanceAs (Decidable True)

namespace Intact

theorem taskList (intact : Intact s h) : TaskList s h where
  toLinked := intact.toLinked
  current := intact.current
  root_live freed := (intact.freed _ freed).2 (intact.root_mem intact.current)
  current_live freed := (intact.freed _ freed).2 intact.current
  next_live t ht freed := by
    obtain ⟨notNull, off⟩ := intact.freed _ freed
    exact off ((intact.list.next_mem ht).resolve_left notNull)

theorem init (live : ∀ t ∈ h.freed, t ≠ 0) (notNull : task ≠ 0) :
    Intact (schedInit task base entry name s) (h.allocate task [task]) where
  list := by
    refine Chain.cons_iff.mpr ⟨rfl, notNull, Chain.nil_iff.mpr ?_⟩
    simp [schedInit, zeroTask]
  once := List.nodup_singleton _
  current := List.mem_singleton_self _
  freed t ht := by
    obtain ⟨freed, other⟩ := List.mem_filter.mp ht
    exact ⟨live t freed, by simpa [History.allocate] using other⟩

theorem create (intact : Intact s h) (notNull : task ≠ 0) (new : task ∉ h.tasks)
    (run : createTask fuel task base entry name s = .ok s') :
    Intact s' (h.allocate task (h.tasks ++ [task])) := by
  obtain ⟨tasks, last, others, ending, _, walked, root, current, records⟩ := createTask_ok run
  obtain none | ⟨l, a, eq⟩ := h.tasks.eq_nil_or_concat'
  · exact absurd (none ▸ intact.current) List.not_mem_nil
  have list := intact.list
  have once := intact.once
  rw [eq] at list once new
  have aNew : a ≠ task := by
    intro h
    exact new (by simp [h])
  have list' : Chain (fun t => (tasks t).next) 0 s.rootTask (l ++ [a]) :=
    list.congr fun t ht => by rw [others t (fun h => new (h ▸ ht))]
  obtain rfl := tailTask_last list' walked
  refine ⟨⟨?_, ?_⟩, ?_, ?_⟩
  · rw [History.allocate, eq, root, records]
    refine list'.snoc notNull ?_ ?_ ?_
    · intro b hb
      have off : b ≠ last := by
        intro h
        exact List.disjoint_of_nodup_append once (h ▸ hb) List.mem_cons_self
      rw [Function.update_of_ne off]
    · rw [Function.update_self]
    · rw [Function.update_of_ne aNew.symm, ending]
  · rw [History.allocate, eq]
    refine List.nodup_append.mpr ⟨once, List.nodup_singleton _, ?_⟩
    intro t ht b hb same
    obtain rfl := List.mem_singleton.mp hb
    exact new (same ▸ ht)
  · rw [current]
    exact List.mem_append_left _ intact.current
  · intro t ht
    obtain ⟨freed, other⟩ := List.mem_filter.mp ht
    obtain ⟨live, off⟩ := intact.freed t freed
    exact ⟨live, by simpa [History.allocate, off] using other⟩

/-- Edits that keep the links, the root and a listed current task keep the list. -/
theorem relabel (intact : Intact s h) (tasks : h'.tasks = h.tasks) (freed : h'.freed = h.freed)
    (root : s'.rootTask = s.rootTask) (links : ∀ t, (s'.tasks t).next = (s.tasks t).next)
    (current : s'.currentTask ∈ h.tasks) : Intact s' h' where
  toLinked := tasks ▸ intact.toLinked.congr root fun t _ => links t
  current := tasks ▸ current
  freed := by
    rw [tasks, freed]
    exact intact.freed

theorem kill (intact : Intact s h) (run : killTask fuel pid s = .ok s')
    (tasks : h'.tasks = h.tasks) (freed : h'.freed = h.freed) : Intact s' h' := by
  obtain ⟨t, _, rfl⟩ := killTask_ok run
  split
  next => exact intact.relabel tasks freed rfl (fun _ => rfl) intact.current
  next => exact intact.relabel tasks freed rfl (fun _ => modify_next fun _ => rfl) intact.current

theorem dispatch (intact : Intact s h) (tasks : h'.tasks = h.tasks)
    (freed : h'.freed = h.freed) : Intact (dispatch regs s).1 h' := by
  refine intact.relabel tasks freed dispatch_rootTask (fun _ => dispatch_next) ?_
  rw [dispatch_selects]
  split
  next => exact intact.current
  next => exact intact.successor_mem intact.current

theorem counted (intact : Intact s h) : Intact (countTick s) h :=
  intact.relabel rfl rfl rfl (fun _ => rfl) intact.current

/-- The list that a removal hands to the dispatcher. -/
theorem remove (intact : Intact s h) (killed : (s.tasks s.currentTask).state = .killed)
    (notRoot : s.currentTask ≠ s.rootTask)
    (run : removeKilled fuel (countTick s) = .ok (s', calls)) (notNull : s'.currentTask ≠ 0) :
    Linked s' (h.tasks.erase s.currentTask) ∧ s'.currentTask ∈ h.tasks.erase s.currentTask :=
  (intact.counted.toLinked.remove intact.current notRoot killed run).imp_right
    (Or.resolve_left · notNull)

theorem tick (intact : Intact s h) (headKept : HeadKept (s, h) (.tick regs))
    (run : sched fuel regs s = .ok (s', out, calls)) : Intact s' (h.tick s regs) := by
  obtain ⟨s₁, notNull, rfl, rfl, ⟨alive, rfl⟩ | ⟨killed, removed⟩⟩ := sched_cases run
  · rw [History.tick_alive alive]
    exact intact.counted.dispatch rfl rfl
  · obtain ⟨linked, current⟩ := intact.remove killed (headKept killed) removed notNull
    have shorter : Intact s₁ (h.tick s regs) := by
      rw [History.tick_killed killed]
      refine ⟨linked, current, ?_⟩
      intro t ht
      obtain rfl | earlier := List.mem_cons.mp ht
      · exact ⟨intact.ne_zero intact.current, intact.once.not_mem_erase⟩
      · obtain ⟨live, off⟩ := intact.freed t earlier
        exact ⟨live, fun listed => off (List.mem_of_mem_erase listed)⟩
    exact shorter.dispatch rfl rfl

end Intact

theorem step_intact {a : KernelCall} (intact : Intact s h) (granted : Granted HeadKept (s, h) a)
    (move : kernel.step (s, h) a (s', h')) : Intact s' h' := by
  obtain ⟨fuel, done⟩ := move
  obtain ⟨fresh, headKept⟩ := granted
  cases a with
  | init task base idle name =>
    cases done
    exact .init (fun t ht => (intact.freed t ht).1) fresh
  | create task base entry name =>
    obtain ⟨s₁, created, rest⟩ := bind_ok done
    cases rest
    exact intact.create fresh.1 fresh.2 created
  | kill pid =>
    obtain ⟨t, _, rest⟩ := bind_ok done
    obtain ⟨s₁, killed, rest⟩ := bind_ok rest
    cases rest
    refine intact.kill killed ?_ ?_
    all_goals split <;> rfl
  | tick frame =>
    obtain ⟨⟨s₁, left, calls⟩, ticked, rest⟩ := bind_ok done
    cases rest
    exact intact.tick headKept ticked

theorem reach_intact (run : kernel.Reach (Granted HeadKept) (s, h)) : Intact s h := by
  refine run.invariant (I := fun r => Intact r.1 r.2) ?_ ?_
  · rintro _ ⟨records, timerTick, task, base, idle, name, notNull, rfl⟩
    exact .init (by simp [History.empty]) notNull
  · intro r a r' _ intact granted move
    exact step_intact intact granted move

theorem task_list_intact (run : kernel.Reach (Granted HeadKept) (s, h)) : TaskList s h :=
  (reach_intact run).taskList

/-- Task 1 is killed while it is current; a younger task stays behind the idle task. -/
theorem task_list_intact_removal :
    ∃ s h, kernel.Reach (Granted HeadKept) (s, h) ∧ h.tasks = [0x1000, 0xD000] ∧ TaskList s h := by
  have run : (performAll (Granted HeadKept) 9
      [.create 0x7000 0x8000 0x300 0x400, .tick zeroRegisters, .tick zeroRegisters, .kill 1,
        .create 0xD000 0xE000 0x300 0x400, .tick zeroRegisters] booted).any
      (fun r => decide (r.2.tasks = [0x1000, 0xD000])) = true := by decide +kernel
  obtain ⟨s, h, reached, listed⟩ := performAll_ends run
  exact ⟨s, h, reached, of_decide_eq_true listed, task_list_intact reached⟩

/-- A tick that removes the head leaves `root_task` on the freed record. -/
theorem head_removed (killed : (s.tasks s.currentTask).state = .killed)
    (head : s.currentTask = s.rootTask) (run : sched fuel regs s = .ok (s', out, calls)) :
    ¬ TaskList s' (h.tick s regs) := by
  obtain ⟨s₁, _, rfl, rfl, ⟨alive, _⟩ | ⟨_, done⟩⟩ := sched_cases run
  · exact absurd killed alive
  have root : s₁.rootTask = s.currentTask := (removeKilled_rootTask done).trans head.symm
  intro list
  refine list.root_live ?_
  rw [History.tick_killed killed, dispatch_rootTask, root]
  exact List.mem_cons_self

/-- The idle task is killed and removed while another task waits. -/
theorem task_list_broken : ∃ s h, kernel.Reach Fresh (s, h) ∧ ¬ TaskList s h := by
  have run : (performAll Fresh 9
      [.create 0x7000 0x8000 0x300 0x400, .tick zeroRegisters, .kill 0, .tick zeroRegisters]
      booted).any (fun r => decide (r.1.rootTask ∈ r.2.freed)) = true := by decide +kernel
  obtain ⟨s, h, reached, dangling⟩ := performAll_ends run
  refine ⟨s, h, reached, ?_⟩
  intro list
  exact list.root_live (of_decide_eq_true dangling)

end X86Os.Scheduler
