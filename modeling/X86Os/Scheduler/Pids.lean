import X86Os.Library.Counter
import X86Os.Scheduler.TaskList

/-!
# Process ids

Every `create_task` takes the next number. While the counter does not wrap and
the idle task stays alive, a pid names at most one task of the list, so
`kill_task` reaches the task that is meant and no other.
-/

namespace X86Os.Scheduler

open Library.Memory Library.Runs Library.PointerList Library.Counter
set_option autoImplicit false

variable {s s' : Sched} {h h' : History} {regs out : Registers} {calls : List MemoryCall}
variable {fuel : Nat} {l given : List Word} {t u task base entry name pid : Word}

/-- The pids that were ever given out, the latest first. -/
def notePid (s : Sched) (given : List Word) : KernelCall → List Word
  | .init task .. | .create task .. => (s.tasks task).pid :: given
  | _ => given

def numbering : System ((Sched × History) × List Word) KernelCall :=
  kernel.tracked (fun r => [(r.1.tasks r.1.rootTask).pid]) fun _ a r => (notePid r.1 · a)

/-- Fewer than 2^31 creations, and no kill of the idle task; `sched_init` is not called again. -/
def IdleSpared : (Sched × History) × List Word → KernelCall → Prop
  | _, .init .. => False
  | (_, given), .create .. => given.length < 2 ^ 31
  | _, .kill pid => pid ≠ 0
  | _, .tick _ => True

def PidsGranted (r : (Sched × History) × List Word) (a : KernelCall) : Prop :=
  Fresh r.1 a ∧ IdleSpared r a

structure PidsIdentify (s : Sched) (given l : List Word) : Prop extends Linked s l where
  given_once : given.Nodup
  listed : ∀ t ∈ l, (s.tasks t).pid ∈ given
  distinct : (l.map fun t => (s.tasks t).pid).Nodup
  kills : ∀ t ∈ l, ∀ fuel, l.length < fuel →
    killTask fuel (s.tasks t).pid s = .ok (s.modify t fun x => { x with state := .killed })
  spares : ∀ pid, (∀ t ∈ l, (s.tasks t).pid ≠ pid) → ∀ fuel, l.length < fuel →
    killTask fuel pid s = .ok s

structure Numbered (s : Sched) (h : History) (given : List Word) : Prop extends Intact s h where
  issued : Issued s.nextpid given
  count : s.nextpid.toNat = given.length
  listed : ∀ t ∈ h.tasks, (s.tasks t).pid ∈ given
  distinct : ∀ t ∈ h.tasks, ∀ u ∈ h.tasks, (s.tasks t).pid = (s.tasks u).pid → t = u
  idle : (s.tasks s.rootTask).pid = 0
  idle_spared : (s.tasks s.rootTask).state ≠ .killed

theorem killTask_list (linked : Linked s l) (enough : l.length < fuel) : killTask fuel pid s =
    match l.find? fun t => (s.tasks t).pid = pid with
    | none => .ok s
    | some t => .ok (s.modify t fun x => { x with state := .killed }) := by
  rw [killTask, findTask_list linked.list enough]
  cases found : l.find? fun t => (s.tasks t).pid = pid with
  | none => rfl
  | some t => exact if_neg (linked.ne_zero (List.mem_of_find?_eq_some found))

theorem find?_pid (distinct : ∀ t ∈ l, ∀ u ∈ l, (s.tasks t).pid = (s.tasks u).pid → t = u)
    (ht : t ∈ l) : (l.find? fun u => (s.tasks u).pid = (s.tasks t).pid) = some t := by
  cases found : l.find? fun u => (s.tasks u).pid = (s.tasks t).pid with
  | none => exact absurd (decide_eq_true rfl) (List.find?_eq_none.mp found t ht)
  | some u =>
    have same : (s.tasks u).pid = (s.tasks t).pid := by simpa using List.find?_some found
    rw [distinct u (List.mem_of_find?_eq_some found) t ht same]

namespace Numbered

theorem root_mem (numbered : Numbered s h given) : s.rootTask ∈ h.tasks :=
  numbered.toLinked.root_mem numbered.current

theorem identify (numbered : Numbered s h given) : PidsIdentify s given h.tasks where
  toLinked := numbered.toLinked
  given_once := numbered.issued.once
  listed := numbered.listed
  distinct := numbered.once.map_on numbered.distinct
  kills t ht fuel enough := by
    rw [killTask_list numbered.toLinked enough, find?_pid numbered.distinct ht]
  spares pid nobody fuel enough := by
    have missing : (h.tasks.find? fun t => decide ((s.tasks t).pid = pid)) = none := by
      simpa [List.find?_eq_none] using nobody
    rw [killTask_list numbered.toLinked enough, missing]

theorem congr (numbered : Numbered s h given) (intact : Intact s' h')
    (fewer : ∀ t ∈ h'.tasks, t ∈ h.tasks) (pids : ∀ t ∈ h'.tasks, (s'.tasks t).pid = (s.tasks t).pid)
    (nextpid : s'.nextpid = s.nextpid) (root : s'.rootTask = s.rootTask)
    (idle_spared : (s'.tasks s'.rootTask).state ≠ .killed) : Numbered s' h' given where
  toIntact := intact
  issued := nextpid ▸ numbered.issued
  count := nextpid ▸ numbered.count
  listed t ht := pids t ht ▸ numbered.listed t (fewer t ht)
  distinct t ht u hu same :=
    numbered.distinct t (fewer t ht) u (fewer u hu) (by rw [← pids t ht, ← pids u hu, same])
  idle := by
    rw [pids _ (intact.toLinked.root_mem intact.current), root]
    exact numbered.idle
  idle_spared := idle_spared

theorem init (notNull : task ≠ 0) (first : s.nextpid = 0) :
    Numbered (schedInit task base entry name s) (History.empty.allocate task [task]) [0] where
  toIntact := .init (by simp [History.empty]) notNull
  issued := by
    simp only [schedInit, first]
    exact ⟨List.nodup_singleton _, by simp⟩
  count := by
    simp only [schedInit, first]
    rfl
  listed t ht := by
    obtain rfl := List.mem_singleton.mp ht
    simp [schedInit, first]
  distinct t ht u hu _ := (List.mem_singleton.mp ht).trans (List.mem_singleton.mp hu).symm
  idle := by simp [schedInit, first]
  idle_spared := by simp [schedInit]

theorem create (numbered : Numbered s h given) (notNull : task ≠ 0) (new : task ∉ h.tasks)
    (room : given.length < 2 ^ 31) (run : createTask fuel task base entry name s = .ok s') :
    Numbered s' (h.allocate task (h.tasks ++ [task])) ((s'.tasks task).pid :: given) := by
  obtain ⟨nextpid, pid, _⟩ := createTask_new run
  obtain ⟨_, _, _, _, _, _, root, _, _⟩ := createTask_ok run
  have small : s.nextpid.toNat + 1 < 2 ^ 32 := by
    rw [numbered.count]
    omega
  have others : ∀ t ∈ h.tasks, (s'.tasks t).pid = (s.tasks t).pid := by
    intro t ht
    rw [createTask_other run fun eq => new (eq ▸ ht)]
  have fresh : ∀ t ∈ h.tasks, (s'.tasks t).pid ≠ (s'.tasks task).pid := by
    intro t ht eq
    rw [others t ht, pid] at eq
    exact numbered.issued.fresh (eq ▸ numbered.listed t ht)
  have rootOld : s.rootTask ≠ task := fun eq => new (eq ▸ numbered.root_mem)
  refine ⟨numbered.toIntact.create notNull new run, ?_, ?_, ?_, ?_, ?_, ?_⟩
  · rw [nextpid, pid]
    exact numbered.issued.next small
  · rw [nextpid, Issued.toNat_next small, numbered.count, List.length_cons]
  · intro t ht
    obtain old | eq := List.mem_append.mp ht
    · rw [others t old]
      exact List.mem_cons_of_mem _ (numbered.listed t old)
    · rw [List.mem_singleton.mp eq]
      exact List.mem_cons_self
  · intro t ht u hu same
    obtain oldT | newT := List.mem_append.mp ht
    · obtain oldU | newU := List.mem_append.mp hu
      · exact numbered.distinct t oldT u oldU (by rwa [others t oldT, others u oldU] at same)
      · rw [List.mem_singleton.mp newU] at same
        exact absurd same (fresh t oldT)
    · rw [List.mem_singleton.mp newT] at same ⊢
      obtain oldU | newU := List.mem_append.mp hu
      · exact absurd same.symm (fresh u oldU)
      · exact (List.mem_singleton.mp newU).symm
  · rw [root, others _ numbered.root_mem]
    exact numbered.idle
  · rw [root, createTask_other run rootOld]
    exact numbered.idle_spared

theorem kill (numbered : Numbered s h given) (notIdle : pid ≠ 0)
    (run : killTask fuel pid s = .ok s') (tasks : h'.tasks = h.tasks) (freed : h'.freed = h.freed) :
    Numbered s' h' given := by
  have intact := numbered.toIntact.kill run tasks freed
  obtain ⟨t, found, eq⟩ := killTask_ok run
  split at eq
  next =>
    subst eq
    exact numbered.congr intact (fun _ => (tasks ▸ ·)) (fun _ _ => rfl) rfl rfl numbered.idle_spared
  next notNull =>
    subst eq
    refine numbered.congr intact (fun _ => (tasks ▸ ·)) ?_ rfl rfl ?_
    · exact fun _ _ => modify_keeps TaskStruct.pid fun _ => rfl
    · have named : (s.tasks t).pid = pid := by
        simpa using List.find?_some (findTask_hit numbered.list found notNull)
      have other : s.rootTask ≠ t := by
        rintro rfl
        exact notIdle (named.symm.trans numbered.idle)
      rw [modify_rootTask, modify_other _ other]
      exact numbered.idle_spared

theorem headKept (numbered : Numbered s h given) (regs : Registers) :
    HeadKept (s, h) (.tick regs) := by
  intro killed head
  exact numbered.idle_spared (head ▸ killed)

theorem tick (numbered : Numbered s h given) (run : sched fuel regs s = .ok (s', out, calls)) :
    Numbered s' (h.tick s regs) given := by
  have intact := numbered.toIntact.tick (numbered.headKept regs) run
  obtain ⟨s₁, _, rfl, _, ⟨alive, rfl⟩ | ⟨killed, done⟩⟩ := sched_cases run
  · have tasks : (h.tick s regs).tasks = h.tasks := by rw [History.tick_alive alive]
    refine numbered.congr intact (fun _ => (tasks ▸ ·)) (fun _ _ => dispatch_pid) dispatch_nextpid
      dispatch_rootTask ?_
    rw [dispatch_rootTask]
    exact dispatch_alive (s := countTick s) numbered.idle_spared
  · have removed := removeKilled_removed killed done
    have tasks : (h.tick s regs).tasks = h.tasks.erase s.currentTask := by
      rw [History.tick_killed killed]
    have rootOther : s.rootTask ≠ s.currentTask := (numbered.headKept regs killed).symm
    refine numbered.congr intact ?_ ?_ ?_ ?_ ?_
    · intro t ht
      rw [tasks] at ht
      exact List.mem_of_mem_erase ht
    · intro t ht
      have other : t ≠ s.currentTask := by
        rintro rfl
        rw [tasks] at ht
        exact numbered.once.not_mem_erase ht
      rw [dispatch_pid, removed.kept t other]
    · exact dispatch_nextpid.trans (removeKilled_nextpid (s := countTick s) done)
    · exact dispatch_rootTask.trans removed.rootTask
    · rw [dispatch_rootTask, removed.rootTask]
      exact dispatch_alive ((removed.state rootOther).trans_ne numbered.idle_spared)

end Numbered

theorem step_numbered {a : KernelCall} {given' : List Word} (numbered : Numbered s h given)
    (granted : PidsGranted ((s, h), given) a)
    (move : numbering.step ((s, h), given) a ((s', h'), given')) : Numbered s' h' given' := by
  obtain ⟨⟨fuel, done⟩, noted⟩ := move
  obtain ⟨fresh, spared⟩ := granted
  obtain rfl : given' = notePid s' given a := noted
  cases a with
  | init task base idle name => exact absurd spared not_false
  | create task base entry name =>
    obtain ⟨s₁, created, rest⟩ := bind_ok done
    cases rest
    exact numbered.create fresh.1 fresh.2 spared created
  | kill pid =>
    obtain ⟨t, _, rest⟩ := bind_ok done
    obtain ⟨s₁, killed, rest⟩ := bind_ok rest
    cases rest
    refine numbered.kill spared killed ?_ ?_
    all_goals split <;> rfl
  | tick frame =>
    obtain ⟨⟨s₁, left, calls⟩, ticked, rest⟩ := bind_ok done
    cases rest
    exact numbered.tick ticked

theorem reach_numbered (run : numbering.Reach PidsGranted ((s, h), given)) : Numbered s h given := by
  refine run.invariant (I := fun r => Numbered r.1.1 r.1.2 r.2) ?_ ?_
  · rintro ⟨r, given⟩ ⟨⟨records, timerTick, task, base, idle, name, notNull, start⟩, noted⟩
    dsimp only at start noted ⊢
    subst start
    have first : given = [0] := by
      rw [noted]
      simp [schedInit]
    rw [first]
    exact .init notNull rfl
  · intro r a r' _ numbered granted move
    exact step_numbered numbered granted move

/-- As long as the idle task is spared and every creation gets a record of its own, a pid names one
task of the list, and no pid is given out twice. -/
theorem pids_identify (run : numbering.Reach PidsGranted ((s, h), given)) :
    PidsIdentify s given h.tasks := (reach_numbered run).identify

/-- Two tasks are created, and the second is killed by its pid. -/
theorem pids_identify_two : ∃ s h given, numbering.Reach PidsGranted ((s, h), given) ∧
    given = [2, 1, 0] ∧ PidsIdentify s given [0x1000, 0x7000, 0xD000] ∧
    killTask 9 2 s = .ok (s.modify 0xD000 fun x => { x with state := .killed }) := by
  obtain ⟨r₁, first⟩ : ∃ r, perform 9 booted.1 booted.2 (.create 0x7000 0x8000 0x300 0x400) = .ok r :=
    ⟨_, rfl⟩
  obtain ⟨r₂, second⟩ : ∃ r, perform 9 r₁.1 r₁.2 (.create 0xD000 0xE000 0x300 0x400) = .ok r := by
    cases first
    exact ⟨_, rfl⟩
  have start : numbering.Reach PidsGranted (booted, _) := .trackedStart ⟨_, _, _, _, _, _, by decide, rfl⟩
  have once : numbering.Reach PidsGranted (r₁, _) :=
    start.trackedNext (a := .create 0x7000 0x8000 0x300 0x400) ⟨by decide, by simp [IdleSpared]⟩
      ⟨9, first⟩
  have new : Fresh r₁ (.create 0xD000 0xE000 0x300 0x400) := by
    cases first
    decide
  have run : numbering.Reach PidsGranted (r₂, _) :=
    once.trackedNext (a := .create 0xD000 0xE000 0x300 0x400) ⟨new, by simp [IdleSpared, notePid]⟩
      ⟨9, second⟩
  have facts : notePid r₂.1 (notePid r₁.1 [(booted.1.tasks booted.1.rootTask).pid]
      (.create 0x7000 0x8000 0x300 0x400)) (.create 0xD000 0xE000 0x300 0x400) = [2, 1, 0] ∧
      r₂.2.tasks = [0x1000, 0x7000, 0xD000] ∧ (r₂.1.tasks 0xD000).pid = 2 := by
    cases first
    cases second
    decide
  obtain ⟨given, tasks, pid⟩ := facts
  have identify := pids_identify run
  rw [tasks] at identify
  have kill := identify.kills 0xD000 (by simp) 9 (by decide)
  rw [pid] at kill
  exact ⟨_, _, _, run, given, identify, kill⟩

theorem findTask_stays (some : t ≠ 0) (other : (s.tasks t).pid ≠ pid) (self : (s.tasks t).next = t) :
    findTask s.tasks pid fuel t = .error .loops := by
  induction fuel with
  | zero => rfl
  | succ fuel ih => rw [findTask, if_neg some, if_neg other, self, ih]

/-- Two creations whose records are refused get the same one. Two tasks of the list are one, and
`kill_task` of the first pid never returns. -/
theorem pids_shared : ∃ s h given, numbering.Reach IdleSpared ((s, h), given) ∧
    ¬PidsIdentify s given h.tasks ∧ ∀ fuel, killTask fuel 1 s = .error .loops := by
  obtain ⟨r₁, first⟩ : ∃ r, perform 9 booted.1 booted.2 (.create 0xFFFFFFFF 0xFFFFFFFF 0x300 0x400) =
      .ok r := ⟨_, rfl⟩
  obtain ⟨r₂, second⟩ : ∃ r, perform 9 r₁.1 r₁.2 (.create 0xFFFFFFFF 0xFFFFFFFF 0x300 0x400) = .ok r := by
    cases first
    exact ⟨_, rfl⟩
  have start : numbering.Reach IdleSpared (booted, _) := .trackedStart ⟨_, _, _, _, _, _, by decide, rfl⟩
  have once : numbering.Reach IdleSpared (r₁, _) :=
    start.trackedNext (a := .create 0xFFFFFFFF 0xFFFFFFFF 0x300 0x400) (by simp [IdleSpared]) ⟨9, first⟩
  have run : numbering.Reach IdleSpared (r₂, _) :=
    once.trackedNext (a := .create 0xFFFFFFFF 0xFFFFFFFF 0x300 0x400) (by simp [IdleSpared, notePid])
      ⟨9, second⟩
  have facts : r₂.2.tasks = [0x1000, 0xFFFFFFFF, 0xFFFFFFFF] ∧ r₂.1.rootTask = 0x1000 ∧
      (r₂.1.tasks 0x1000).pid ≠ 1 ∧ (r₂.1.tasks 0x1000).next = 0xFFFFFFFF ∧
      (r₂.1.tasks 0xFFFFFFFF).pid ≠ 1 ∧ (r₂.1.tasks 0xFFFFFFFF).next = 0xFFFFFFFF := by
    cases first
    cases second
    decide
  obtain ⟨tasks, root, idle, behind, other, self⟩ := facts
  refine ⟨r₂.1, r₂.2, _, run, fun identify => ?_, fun fuel => ?_⟩
  · have distinct := identify.distinct
    rw [tasks] at distinct
    simp at distinct
  · have hangs : findTask r₂.1.tasks 1 fuel r₂.1.rootTask = .error .loops := by
      cases fuel with
      | zero => rfl
      | succ fuel =>
        rw [findTask, root, if_neg (by decide), if_neg idle, behind]
        exact findTask_stays (by decide) other self
    rw [killTask, hangs]
    rfl

end X86Os.Scheduler
