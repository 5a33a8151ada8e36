import X86Os.Library.PointerList
import X86Os.Scheduler.Tasks

/-!
# What the functions of the scheduler do to the records

The facts of the first part need no well-formed list. Where a walk follows an
intact list, the second part says where it ends and what it leaves.
-/

namespace X86Os.Scheduler

open Library.Memory Library.PointerList
set_option autoImplicit false

variable {s s' : Sched} {regs out : Registers} {calls : List MemoryCall} {fuel : Nat}
variable {tasks tasks' : Word → TaskStruct} {c p t u pid : Word}

theorem bind_ok {ε α β : Type} {x : Except ε α} {f : α → Except ε β} {b : β}
    (h : x >>= f = .ok b) : ∃ a, x = .ok a ∧ f a = .ok b := by
  cases x with
  | error e => cases h
  | ok a => exact ⟨a, rfl, h⟩

@[simp] theorem modify_rootTask (f : TaskStruct → TaskStruct) :
    (s.modify t f).rootTask = s.rootTask := rfl

@[simp] theorem modify_currentTask (f : TaskStruct → TaskStruct) :
    (s.modify t f).currentTask = s.currentTask := rfl

theorem modify_same (f : TaskStruct → TaskStruct) :
    (s.modify t f).tasks t = f (s.tasks t) := Function.update_self ..

theorem modify_other (f : TaskStruct → TaskStruct) (h : u ≠ t) :
    (s.modify t f).tasks u = s.tasks u := Function.update_of_ne h ..

theorem modify_modify (f g : TaskStruct → TaskStruct) :
    (s.modify t f).modify t g = s.modify t fun x => g (f x) := by
  simp [Sched.modify]

/-- What an edit keeps of the edited record it keeps of every record. -/
theorem modify_keeps {β : Type} (g : TaskStruct → β) {f : TaskStruct → TaskStruct}
    (same : ∀ x, g (f x) = g x) : g ((s.modify t f).tasks u) = g (s.tasks u) := by
  obtain rfl | other := eq_or_ne u t
  · rw [modify_same, same]
  · rw [modify_other f other]

theorem modify_next {f : TaskStruct → TaskStruct} (links : ∀ x, (f x).next = x.next) :
    ((s.modify t f).tasks u).next = (s.tasks u).next := modify_keeps TaskStruct.next links

@[simp] theorem switchAway_currentTask :
    (switchAway regs s).currentTask = s.successor s.currentTask := by
  simp [switchAway, savePreempted, Sched.successor, modify_next]

@[simp] theorem switchAway_rootTask : (switchAway regs s).rootTask = s.rootTask := rfl

theorem switchAway_same :
    (switchAway regs s).tasks s.currentTask =
      { s.tasks s.currentTask with regs := regs, state := .pending } := by
  simp [switchAway, savePreempted, modify_same]

theorem switchAway_other (h : t ≠ s.currentTask) :
    (switchAway regs s).tasks t = s.tasks t := by
  simp [switchAway, savePreempted, modify_other _ h]

/-- The exits of `sched` behind the removal. -/
theorem dispatch_cases (regs : Registers) (s : Sched) :
    (s.tasks s.currentTask).state = .created ∧ dispatch regs s = startCurrent regs s ∨
    (s.tasks s.currentTask).state ≠ .created ∧
      (((switchAway regs s).tasks (s.successor s.currentTask)).state = .created ∧
        dispatch regs s = startCurrent regs (switchAway regs s) ∨
      ((switchAway regs s).tasks (s.successor s.currentTask)).state ≠ .created ∧
        dispatch regs s = resumeCurrent (switchAway regs s)) := by
  by_cases created : (s.tasks s.currentTask).state = .created
  · exact .inl ⟨created, if_pos created⟩
  · refine .inr ⟨created, ?_⟩
    by_cases fresh : ((switchAway regs s).tasks (s.successor s.currentTask)).state = .created
    · exact .inl ⟨fresh, by simp [dispatch, created, fresh]⟩
    · exact .inr ⟨fresh, by simp [dispatch, created, fresh]⟩

/-- Nothing but the task the dispatcher looks at and the one behind it changes. -/
theorem dispatch_frame (here : t ≠ s.currentTask)
    (behind : (s.tasks s.currentTask).state = .created ∨ t ≠ s.successor s.currentTask) :
    (dispatch regs s).1.tasks t = s.tasks t ∧ (dispatch regs s).1.currentTask ≠ t := by
  obtain ⟨created, eq⟩ | ⟨running, switched⟩ := dispatch_cases regs s
  · rw [eq]
    simp [startCurrent, modify_other _ here, Ne.symm here]
  · have away := behind.resolve_left running
    obtain ⟨_, eq⟩ | ⟨_, eq⟩ := switched
    all_goals
      rw [eq]
      simp [startCurrent, resumeCurrent, modify_other _ away, switchAway_other here, Ne.symm away]

/-- The dispatcher edits `regs` and `state` only. -/
theorem dispatch_keeps {β : Type} (g : TaskStruct → β)
    (same : ∀ x regs state, g { x with regs := regs, state := state } = g x) :
    g ((dispatch regs s).1.tasks t) = g (s.tasks t) := by
  have saved : g ((switchAway regs s).tasks t) = g (s.tasks t) :=
    modify_keeps (s := s) g fun x => same x regs .pending
  obtain ⟨_, eq⟩ | ⟨_, ⟨_, eq⟩ | ⟨_, eq⟩⟩ := dispatch_cases regs s
  · rw [eq]
    exact modify_keeps g fun x => same x x.regs .running
  all_goals
    rw [eq]
    exact (modify_keeps g fun x => same x x.regs .running).trans saved

theorem dispatch_next : ((dispatch regs s).1.tasks t).next = (s.tasks t).next :=
  dispatch_keeps TaskStruct.next fun _ _ _ => rfl

theorem dispatch_stack : ((dispatch regs s).1.tasks t).stack = (s.tasks t).stack :=
  dispatch_keeps TaskStruct.stack fun _ _ _ => rfl

theorem dispatch_pid : ((dispatch regs s).1.tasks t).pid = (s.tasks t).pid :=
  dispatch_keeps TaskStruct.pid fun _ _ _ => rfl

theorem dispatch_nextpid : (dispatch regs s).1.nextpid = s.nextpid := by
  obtain ⟨_, eq⟩ | ⟨_, ⟨_, eq⟩ | ⟨_, eq⟩⟩ := dispatch_cases regs s
  all_goals rw [eq]; rfl

theorem dispatch_rootTask : (dispatch regs s).1.rootTask = s.rootTask := by
  obtain ⟨_, eq⟩ | ⟨_, ⟨_, eq⟩ | ⟨_, eq⟩⟩ := dispatch_cases regs s
  all_goals rw [eq]; rfl

theorem dispatch_selects : (dispatch regs s).1.currentTask =
    if (s.tasks s.currentTask).state = .created then s.currentTask
    else s.successor s.currentTask := by
  obtain ⟨created, eq⟩ | ⟨began, ⟨_, eq⟩ | ⟨_, eq⟩⟩ := dispatch_cases regs s
  · rw [eq, if_pos created]
    rfl
  all_goals
    rw [eq, if_neg began]
    exact switchAway_currentTask

theorem dispatch_running :
    ((dispatch regs s).1.tasks (dispatch regs s).1.currentTask).state = .running := by
  obtain ⟨_, eq⟩ | ⟨_, ⟨_, eq⟩ | ⟨_, eq⟩⟩ := dispatch_cases regs s
  all_goals
    rw [eq]
    simp [startCurrent, resumeCurrent, modify_same]

theorem dispatch_alive (alive : (s.tasks t).state ≠ .killed) :
    ((dispatch regs s).1.tasks t).state ≠ .killed := by
  have run {s : Sched} (alive : (s.tasks t).state ≠ .killed) (u : Word) :
      ((s.modify u fun x => { x with state := .running }).tasks t).state ≠ .killed := by
    obtain rfl | other := eq_or_ne t u
    · rw [modify_same]
      nofun
    · rwa [modify_other _ other]
  have saved : ((switchAway regs s).tasks t).state ≠ .killed := by
    obtain rfl | other := eq_or_ne t s.currentTask
    · rw [switchAway_same]
      nofun
    · rwa [switchAway_other other]
  obtain ⟨_, eq⟩ | ⟨_, ⟨_, eq⟩ | ⟨_, eq⟩⟩ := dispatch_cases regs s
  · exact eq ▸ run alive _
  · exact eq ▸ run saved _
  · exact eq ▸ run saved _

theorem removeKilled_cases (run : removeKilled fuel s = .ok (s', calls)) :
    (s.tasks s.currentTask).state ≠ .killed ∧ s' = s ∨
    (s.tasks s.currentTask).state = .killed ∧
      ∃ tasks, unlinkLoop s.currentTask fuel s.tasks s.rootTask = .ok tasks ∧
        s' = { s with
          tasks := Function.update tasks s.currentTask zeroTask,
          currentTask := (tasks s.currentTask).next } := by
  unfold removeKilled at run
  split at run
  next killed =>
    obtain ⟨tasks, unlinked, eq⟩ := bind_ok run
    cases eq
    exact .inr ⟨killed, tasks, unlinked, rfl⟩
  next alive =>
    cases run
    exact .inl ⟨alive, rfl⟩

theorem removeKilled_eq (killed : (s.tasks s.currentTask).state = .killed)
    (unlinked : unlinkLoop s.currentTask fuel s.tasks s.rootTask = .ok tasks) :
    removeKilled fuel s =
      .ok ({ s with
          tasks := Function.update tasks s.currentTask zeroTask,
          currentTask := (tasks s.currentTask).next },
        [.memset (tasks s.currentTask).stack stackSize, .free (tasks s.currentTask).stack,
          .memset s.currentTask sizeofTaskStruct, .free s.currentTask]) := by
  rw [removeKilled, if_pos killed, unlinked]
  rfl

theorem sched_alive (alive : (s.tasks s.currentTask).state ≠ .killed)
    (notNull : s.currentTask ≠ 0) : sched fuel regs s =
      .ok ((dispatch regs (countTick s)).1, (dispatch regs (countTick s)).2, []) := by
  have removed : removeKilled fuel (countTick s) = .ok (countTick s, []) := if_neg alive
  rw [sched, removed]
  exact if_neg notNull

theorem dispatch_self (started : (s.tasks s.currentTask).state ≠ .created)
    (self : s.successor s.currentTask = s.currentTask) :
    (dispatch regs s).2 = regs ∧ (dispatch regs s).1.currentTask = s.currentTask := by
  refine ⟨?_, by rw [dispatch_selects, if_neg started, self]⟩
  obtain ⟨created, _⟩ | ⟨_, ⟨created, _⟩ | ⟨_, eq⟩⟩ := dispatch_cases regs s
  · exact absurd created started
  · rw [self, switchAway_same] at created
    cases created
  · rw [eq, resumeCurrent, switchAway_currentTask, self, switchAway_same]

theorem removeKilled_rootTask (run : removeKilled fuel s = .ok (s', calls)) :
    s'.rootTask = s.rootTask := by
  obtain ⟨_, eq⟩ | ⟨_, _, _, eq⟩ := removeKilled_cases run
  all_goals rw [eq]

theorem removeKilled_nextpid (run : removeKilled fuel s = .ok (s', calls)) :
    s'.nextpid = s.nextpid := by
  obtain ⟨_, eq⟩ | ⟨_, _, _, eq⟩ := removeKilled_cases run
  all_goals rw [eq]

/-- A `sched` that returns has removed a killed current task and then dispatched. -/
theorem sched_cases (run : sched fuel regs s = .ok (s', out, calls)) :
    ∃ s₁, s₁.currentTask ≠ 0 ∧ s' = (dispatch regs s₁).1 ∧ out = (dispatch regs s₁).2 ∧
      ((s.tasks s.currentTask).state ≠ .killed ∧ s₁ = countTick s ∨
        (s.tasks s.currentTask).state = .killed ∧
          removeKilled fuel (countTick s) = .ok (s₁, calls)) := by
  obtain ⟨⟨s₁, calls'⟩, removed, rest⟩ := bind_ok run
  dsimp only at rest
  split at rest
  next => cases rest
  next notNull =>
    cases rest
    refine ⟨s₁, notNull, rfl, rfl, ?_⟩
    obtain ⟨alive, eq⟩ | ⟨killed, _⟩ := removeKilled_cases removed
    · exact .inl ⟨alive, eq⟩
    · exact .inr ⟨killed, removed⟩

theorem killTask_ok (run : killTask fuel pid s = .ok s') :
    ∃ t, findTask s.tasks pid fuel s.rootTask = .ok t ∧
      s' = if t = 0 then s else s.modify t fun x => { x with state := .killed } := by
  obtain ⟨t, found, rest⟩ := bind_ok run
  refine ⟨t, found, ?_⟩
  split at rest
  next null => rw [if_pos null]; cases rest; rfl
  next notNull => rw [if_neg notNull]; cases rest; rfl

/-- The new record is filled first; then the record at the end of the list gets the link. -/
theorem createTask_ok {task base entry name : Word}
    (run : createTask fuel task base entry name s = .ok s') :
    ∃ tasks last, (∀ t, t ≠ task → tasks t = s.tasks t) ∧
      (tasks task).next = 0 ∧ (tasks task).state = .created ∧
      tailTask tasks fuel s.rootTask = .ok last ∧
      s'.rootTask = s.rootTask ∧ s'.currentTask = s.currentTask ∧
      s'.tasks = Function.update tasks last { tasks last with next := task } := by
  obtain ⟨last, walked, rest⟩ := bind_ok run
  cases rest
  refine ⟨(s.modify task (fillTask base entry name s.nextpid)).tasks, last,
    fun t ht => modify_other _ ht, ?_, ?_, walked, rfl, rfl, rfl⟩
  · rw [modify_same, fillTask]
  · rw [modify_same, fillTask]

/-- Of the other records it changes a link at most. -/
theorem createTask_other {task base entry name : Word}
    (run : createTask fuel task base entry name s = .ok s') (other : t ≠ task) :
    s'.tasks t = { s.tasks t with next := (s'.tasks t).next } := by
  obtain ⟨tasks, last, others, _, _, _, _, _, records⟩ := createTask_ok run
  rw [records, ← others t other]
  obtain rfl | away := eq_or_ne t last
  · rw [Function.update_self]
  · rw [Function.update_of_ne away]

theorem createTask_new {task base entry name : Word}
    (run : createTask fuel task base entry name s = .ok s') :
    s'.nextpid = s.nextpid + 1 ∧ (s'.tasks task).pid = s.nextpid ∧
      (s'.tasks task).state = .created := by
  obtain ⟨last, walked, rest⟩ := bind_ok run
  cases rest
  refine ⟨rfl, ?_, ?_⟩
  · refine (modify_keeps TaskStruct.pid ?_).trans ?_
    · exact fun _ => rfl
    · exact congrArg TaskStruct.pid (modify_same _)
  · refine (modify_keeps TaskStruct.state ?_).trans ?_
    · exact fun _ => rfl
    · exact congrArg TaskStruct.state (modify_same _)

theorem unlinkAt_same (points : (tasks p).next = c) :
    unlinkAt c tasks p p = { tasks p with next := (tasks c).next } := by
  rw [unlinkAt, if_pos points, Function.update_self]

theorem unlinkAt_other (h : t ≠ p) : unlinkAt c tasks p t = tasks t := by
  unfold unlinkAt
  split
  next => exact Function.update_of_ne h ..
  next => rfl

theorem unlinkAt_spared (spared : (tasks p).next ≠ c) : unlinkAt c tasks p = tasks :=
  if_neg spared

theorem unlinkAt_next_only : unlinkAt c tasks p t =
    { tasks t with next := (unlinkAt c tasks p t).next } := by
  by_cases points : (tasks p).next = c
  · by_cases h : t = p
    · rw [h, unlinkAt_same points]
    · rw [unlinkAt_other h]
  · rw [unlinkAt_spared points]

theorem unlinkAt_current : unlinkAt c tasks p c = tasks c := by
  by_cases points : (tasks p).next = c
  · by_cases h : c = p
    · rw [h] at points ⊢
      exact unlinkAt_same points
    · exact unlinkAt_other h
  · rw [unlinkAt_spared points]

theorem unlinkLoop_next_only (run : unlinkLoop c fuel tasks p = .ok tasks') (t : Word) :
    tasks' t = { tasks t with next := (tasks' t).next } := by
  induction fuel generalizing tasks p with
  | zero => cases run
  | succ fuel ih =>
    rw [unlinkLoop] at run
    split at run
    next => cases run; rfl
    next =>
      have later := ih run
      rwa [unlinkAt_next_only] at later

theorem unlinkLoop_current (run : unlinkLoop c fuel tasks p = .ok tasks') :
    tasks' c = tasks c := by
  induction fuel generalizing tasks p with
  | zero => cases run
  | succ fuel ih =>
    rw [unlinkLoop] at run
    split at run
    next => cases run; rfl
    next => exact (ih run).trans unlinkAt_current

/-- A task that points to itself traps the loop. -/
theorem unlinkLoop_self (notNull : p ≠ 0) (self : (tasks p).next = p) (other : p ≠ c) :
    unlinkLoop c fuel tasks p = .error .loops := by
  induction fuel with
  | zero => rfl
  | succ fuel ih =>
    rw [unlinkLoop, if_neg notNull, unlinkAt_spared (by rwa [self]), self]
    exact ih

/-- The loop spares the link of the task behind the unlinked one as well: pointing
that task back at itself would trap it. -/
theorem unlinkLoop_successor (run : unlinkLoop c fuel tasks p = .ok tasks')
    (other : (tasks c).next ≠ c) :
    tasks' (tasks c).next = tasks (tasks c).next := by
  induction fuel generalizing tasks p with
  | zero => cases run
  | succ fuel ih =>
    rw [unlinkLoop] at run
    split at run
    next => cases run; rfl
    next notNull =>
      have later := ih run (by rwa [unlinkAt_current])
      rw [unlinkAt_current] at later
      rw [later]
      by_cases h : (tasks c).next = p
      · by_cases points : (tasks p).next = c
        · have self : (unlinkAt c tasks p p).next = p := by rw [unlinkAt_same points, h]
          have stuck : unlinkLoop c fuel (unlinkAt c tasks p) p = .error .loops :=
            unlinkLoop_self notNull self (h ▸ other)
          rw [self, stuck] at run
          cases run
        · rw [unlinkAt_spared points]
      · exact unlinkAt_other h

/-- Along a list without a pointer to `c` the loop does nothing. -/
theorem unlinkLoop_pass {l : List Word} (list : Chain (fun t => (tasks t).next) 0 p l)
    (spared : ∀ t ∈ l, (tasks t).next ≠ c) (run : unlinkLoop c fuel tasks p = .ok tasks') :
    tasks' = tasks := by
  induction l generalizing fuel p with
  | nil =>
    cases fuel with
    | zero => cases run
    | succ fuel =>
      rw [unlinkLoop, if_pos (Chain.nil_iff.mp list)] at run
      cases run
      rfl
  | cons a l ih =>
    obtain ⟨rfl, notNull, rest⟩ := Chain.cons_iff.mp list
    cases fuel with
    | zero => cases run
    | succ fuel =>
      rw [unlinkLoop, if_neg notNull, unlinkAt_spared (spared p List.mem_cons_self)] at run
      exact ih rest (fun t ht => spared t (List.mem_cons_of_mem _ ht)) run

/-- Along an intact list it unlinks `c` from the task in front of it. -/
theorem unlinkLoop_unlinks {l₁ l₂ : List Word} {a : Word}
    (list : Chain (fun t => (tasks t).next) 0 p (l₁ ++ a :: c :: l₂))
    (once : (l₁ ++ a :: c :: l₂).Nodup) (run : unlinkLoop c fuel tasks p = .ok tasks') :
    tasks' = unlinkAt c tasks a := by
  induction l₁ generalizing fuel p with
  | nil =>
    obtain ⟨rfl, notNull, rest⟩ := Chain.cons_iff.mp list
    obtain ⟨points, cNotNull, behind⟩ := Chain.cons_iff.mp rest
    simp only [List.nil_append, List.nodup_cons, List.mem_cons, not_or] at once
    obtain ⟨⟨away, off⟩, cOff, _⟩ := once
    cases fuel with
    | zero => cases run
    | succ fuel =>
      rw [unlinkLoop, if_neg notNull, unlinkAt_same points] at run
      have same : ∀ t ∈ l₂, unlinkAt c tasks p t = tasks t := by
        intro t ht
        refine unlinkAt_other ?_
        intro h
        exact off (h ▸ ht)
      have list' : Chain (fun t => (unlinkAt c tasks p t).next) 0 (tasks c).next l₂ :=
        behind.congr fun t ht => by rw [same t ht]
      refine unlinkLoop_pass list' ?_ run
      intro t ht h
      rw [same t ht] at h
      obtain null | mem := behind.next_mem ht
      · exact cNotNull (h.symm.trans null)
      · exact cOff (h ▸ mem)
  | cons b l₁ ih =>
    obtain ⟨rfl, notNull, rest⟩ := Chain.cons_iff.mp list
    have spared : (tasks p).next ≠ c := by
      have distinct := (List.nodup_cons.mp once).2
      rw [rest.head_eq]
      cases l₁ with
      | nil =>
        intro h
        obtain rfl : a = c := h
        exact (List.nodup_cons.mp distinct).1 List.mem_cons_self
      | cons b l₁ =>
        intro h
        obtain rfl : b = c := h
        exact (List.nodup_cons.mp distinct).1 (by simp)
    cases fuel with
    | zero => cases run
    | succ fuel =>
      rw [unlinkLoop, if_neg notNull, unlinkAt_spared spared] at run
      exact ih rest (List.nodup_cons.mp once).2 run

/-- On a list the loop ends: behind the link that it changes it follows the rest. -/
theorem unlinkLoop_returns {l : List Word} (list : Chain (fun t => (tasks t).next) 0 p l)
    (once : l.Nodup) (notNull : c ≠ 0) (enough : l.length < fuel) :
    ∃ tasks', unlinkLoop c fuel tasks p = .ok tasks' := by
  induction fuel generalizing tasks p l with
  | zero => omega
  | succ fuel ih =>
    rw [unlinkLoop]
    cases l with
    | nil => exact ⟨tasks, if_pos (Chain.nil_iff.mp list)⟩
    | cons a l =>
      obtain ⟨rfl, inside, rest⟩ := Chain.cons_iff.mp list
      rw [List.nodup_cons] at once
      rw [List.length_cons] at enough
      have kept : ∀ t ∈ l, (unlinkAt c tasks p t).next = (tasks t).next := by
        intro t ht
        have other : t ≠ p := by
          rintro rfl
          exact once.1 ht
        rw [unlinkAt_other other]
      rw [if_neg inside]
      by_cases points : (tasks p).next = c
      · rw [unlinkAt_same points]
        cases l with
        | nil => exact absurd (points.symm.trans (Chain.nil_iff.mp rest)) notNull
        | cons b l =>
          obtain ⟨same, _, behind⟩ := Chain.cons_iff.mp rest
          obtain rfl : c = b := points.symm.trans same
          rw [List.length_cons] at enough
          have later := behind.congr fun t ht => kept t (List.mem_cons_of_mem _ ht)
          exact ih later (List.nodup_cons.mp once.2).2 (by omega)
      · rw [unlinkAt_spared points] at kept ⊢
        exact ih rest once.2 (by omega)

def Sched.turn (s : Sched) : Word :=
  if (s.tasks s.currentTask).state = .killed then (s.tasks s.currentTask).next
  else s.currentTask

/-- What a removal leaves, whatever the list looks like. -/
structure Removed (s s' : Sched) : Prop where
  rootTask : s'.rootTask = s.rootTask
  currentTask : s'.currentTask = (s.tasks s.currentTask).next
  erased : s'.tasks s.currentTask = zeroTask
  kept : ∀ t, t ≠ s.currentTask → s'.tasks t = { s.tasks t with next := (s'.tasks t).next }
  behind : s'.currentTask ≠ s.currentTask → s'.tasks s'.currentTask = s.tasks s'.currentTask

theorem removeKilled_removed (killed : (s.tasks s.currentTask).state = .killed)
    (run : removeKilled fuel (countTick s) = .ok (s', calls)) : Removed s s' := by
  obtain ⟨alive, _⟩ | ⟨_, tasks, unlinked, eq⟩ := removeKilled_cases run
  · exact absurd killed alive
  have current : s'.currentTask = (s.tasks s.currentTask).next := by
    rw [eq]
    exact congrArg TaskStruct.next (unlinkLoop_current unlinked)
  have others : ∀ t, t ≠ s.currentTask → s'.tasks t = tasks t := by
    intro t ht
    rw [eq]
    exact Function.update_of_ne ht ..
  refine ⟨removeKilled_rootTask (s := countTick s) run, current, ?_, ?_, ?_⟩
  · rw [eq]
    exact Function.update_self ..
  · intro t ht
    rw [others t ht]
    exact unlinkLoop_next_only unlinked t
  · intro away
    rw [others _ away, current]
    exact unlinkLoop_successor unlinked (current ▸ away)

theorem Removed.state (removed : Removed s s') (other : t ≠ s.currentTask) :
    (s'.tasks t).state = (s.tasks t).state := by
  rw [removed.kept t other]

theorem Removed.successor (removed : Removed s s') (away : s'.currentTask ≠ s.currentTask) :
    s'.successor s'.currentTask = s.successor s'.currentTask := by
  rw [Sched.successor, Sched.successor, removed.behind away, removed.rootTask]

theorem tailTask_last {l : List Word} {a : Word}
    (list : Chain (fun t => (tasks t).next) 0 p (l ++ [a]))
    (run : tailTask tasks fuel p = .ok t) : t = a := by
  induction l generalizing fuel p with
  | nil =>
    obtain ⟨rfl, _, rest⟩ := Chain.cons_iff.mp list
    cases fuel with
    | zero => cases run
    | succ fuel =>
      rw [tailTask, if_pos (Chain.nil_iff.mp rest)] at run
      cases run
      rfl
  | cons b l ih =>
    obtain ⟨rfl, _, rest⟩ := Chain.cons_iff.mp list
    have more : (tasks p).next ≠ 0 := by
      rw [rest.head_eq]
      cases l with
      | nil => exact (Chain.cons_iff.mp rest).2.1
      | cons b l => exact (Chain.cons_iff.mp rest).2.1
    cases fuel with
    | zero => cases run
    | succ fuel =>
      rw [tailTask, if_neg more] at run
      exact ih rest run

theorem findTask_list {l : List Word} (list : Chain (fun t => (tasks t).next) 0 p l)
    (enough : l.length < fuel) :
    findTask tasks pid fuel p = .ok ((l.find? fun t => (tasks t).pid = pid).getD 0) := by
  induction l generalizing fuel p with
  | nil =>
    obtain ⟨fuel, rfl⟩ := Nat.exists_eq_succ_of_ne_zero (Nat.ne_of_gt enough)
    rw [findTask, if_pos (Chain.nil_iff.mp list)]
    rfl
  | cons a l ih =>
    obtain ⟨fuel, rfl⟩ := Nat.exists_eq_succ_of_ne_zero (Nat.ne_of_gt (Nat.zero_lt_of_lt enough))
    obtain ⟨rfl, notNull, rest⟩ := Chain.cons_iff.mp list
    rw [findTask, if_neg notNull, List.find?_cons]
    split
    next found => simp [found]
    next other =>
      simp only [other, decide_false]
      exact ih rest (Nat.lt_of_succ_lt_succ enough)

theorem findTask_hit {l : List Word} (list : Chain (fun t => (tasks t).next) 0 p l)
    (run : findTask tasks pid fuel p = .ok t) (notNull : t ≠ 0) :
    (l.find? fun u => (tasks u).pid = pid) = some t := by
  induction l generalizing fuel p with
  | nil =>
    cases fuel with
    | zero => cases run
    | succ fuel =>
      rw [findTask, if_pos (Chain.nil_iff.mp list)] at run
      cases run
      exact absurd rfl notNull
  | cons a l ih =>
    obtain ⟨rfl, inside, rest⟩ := Chain.cons_iff.mp list
    cases fuel with
    | zero => cases run
    | succ fuel =>
      rw [findTask, if_neg inside] at run
      rw [List.find?_cons]
      split at run
      next found =>
        cases run
        simp [found]
      next other =>
        simp only [other, decide_false]
        exact ih rest run

end X86Os.Scheduler
