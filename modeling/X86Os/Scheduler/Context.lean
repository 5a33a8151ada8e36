import X86Os.Scheduler.History

/-!
# Register contexts across ticks

A task that resumes gets the frame of its last preemption, and a task that
starts gets a context that its record determines, in every run that avoids two
ticks: one that starts a task, as `edx` and `esi` keep what the interrupted code
had in them, and one that removes a killed task in front of a task with a saved
frame, as the frame of the killed task is then saved over it.
-/

namespace X86Os.Scheduler

open Library.Memory Library.Runs
set_option autoImplicit false

variable {s s' : Sched} {h h' : History} {f out : Registers} {calls : List MemoryCall}
variable {fuel : Nat} {t u task base entry name pid : Word}
variable {pre pre' : Word → Option Registers} {g : Word → Word → Word × Word}

structure Context where
  eax : Word
  ebx : Word
  ecx : Word
  edx : Word
  esi : Word
  edi : Word
  ebp : Word
  esp : Word
  eip : Word

def Registers.context (r : Registers) : Context :=
  ⟨r.eax, r.ebx, r.ecx, r.edx, r.esi, r.edi, r.ebp, r.esp, r.eip⟩

/-- The context of a first start, for `edx` and `esi` as `g` picks them. -/
def startContext (g : Word → Word → Word × Word) (stack entry : Word) : Context :=
  ⟨0, 0, 0, (g stack entry).1, (g stack entry).2, 0, 0, stack, entry⟩

/-- The record of a task as the dispatcher finds it. -/
def Sched.found (s : Sched) (t : Word) : TaskStruct :=
  if (s.tasks s.currentTask).state = .killed ∧ t = s.currentTask then zeroTask else s.tasks t

def Sched.selected (s : Sched) : Word :=
  if (s.found s.turn).state = .created then s.turn else s.successor s.turn

structure TickKeeps (start : Word → Word → Context) (s : Sched) (h : History) (f : Registers)
    (s' : Sched) (out : Registers) : Prop where
  resumed : ∀ p, (h.tick s f).preempted s'.currentTask = some p → out = p
  started : (s.found s'.currentTask).state = .created →
    out.context = start (s.found s'.currentTask).stack (s.found s'.currentTask).entry

def ContextsKept (guard : Sched × History → KernelCall → Prop) : Prop :=
  ∃ start, ∀ s h, kernel.Reach guard (s, h) → ∀ f, guard (s, h) (.tick f) →
    ∀ fuel s' out calls, sched fuel f s = .ok (s', out, calls) → TickKeeps start s h f s' out

/-- On a tick that starts a task, `edx` and `esi` are what `g` says of its record. A tick
that removes a task finds no other frame saved for the task behind it. -/
def FramesApart (g : Word → Word → Word × Word) : Sched × History → KernelCall → Prop
  | (s, h), .tick f =>
    ((s.found s.selected).state = .created →
      (f.edx, f.esi) = g (s.found s.selected).stack (s.found s.selected).entry) ∧
    ((s.tasks s.currentTask).state = .killed →
      h.preempted s.turn = none ∨ h.preempted s.turn = some f)
  | _, _ => True

instance : (r : Sched × History) → (a : KernelCall) → Decidable (FramesApart g r a)
  | (s, h), .tick f => inferInstanceAs (Decidable
      (((s.found s.selected).state = .created →
        (f.edx, f.esi) = g (s.found s.selected).stack (s.found s.selected).entry) ∧
      ((s.tasks s.currentTask).state = .killed →
        h.preempted s.turn = none ∨ h.preempted s.turn = some f)))
  | _, .init .. | _, .create .. | _, .kill _ => inferInstanceAs (Decidable True)

def Saved (s : Sched) (pre : Word → Option Registers) : Prop :=
  ∀ t p, pre t = some p → (s.tasks t).state ≠ .created ∧ (s.tasks t).regs = p

namespace Saved

theorem started (saved : Saved s pre) (created : (s.tasks t).state = .created) :
    pre t = none := by
  cases known : pre t with
  | none => rfl
  | some p => exact absurd created (saved t p known).1

theorem run (saved : Saved s pre) :
    Saved (s.modify t fun x => { x with state := .running }) pre := by
  intro u p known
  obtain ⟨state, regs⟩ := saved u p known
  obtain rfl | other := eq_or_ne u t
  · rw [modify_same]
    exact ⟨nofun, regs⟩
  · rw [modify_other _ other]
    exact ⟨state, regs⟩

theorem switchAway (saved : Saved s pre) (others : ∀ t, t ≠ s.currentTask → pre' t = pre t)
    (own : ∀ p, pre' s.currentTask = some p → p = f) : Saved (switchAway f s) pre' := by
  intro u p known
  obtain rfl | other := eq_or_ne u s.currentTask
  · rw [switchAway_same]
    exact ⟨nofun, (own p known).symm⟩
  · rw [switchAway_other other]
    exact saved u p (others u other ▸ known)

/-- Behind the removal a tick may save the interrupted frame for the task whose turn it
was, as long as the history agrees. -/
theorem dispatch (saved : Saved s pre) (others : ∀ t, t ≠ s.currentTask → pre' t = pre t)
    (own : (s.tasks s.currentTask).state = .created ∧ pre' s.currentTask = pre s.currentTask ∨
      (s.tasks s.currentTask).state ≠ .created ∧ ∀ p, pre' s.currentTask = some p → p = f) :
    Saved (dispatch f s).1 pre' ∧
      ∀ p, pre' (dispatch f s).1.currentTask = some p → (dispatch f s).2 = p := by
  obtain ⟨created, eq⟩ | ⟨began, switched⟩ := dispatch_cases f s
  · rw [eq]
    have same : pre' = pre := by
      funext t
      obtain rfl | other := eq_or_ne t s.currentTask
      · exact (own.resolve_right fun began => began.1 created).2
      · exact others t other
    rw [same]
    refine ⟨saved.run, ?_⟩
    intro p known
    exact absurd ((saved.started created).symm.trans known) nofun
  · have away := saved.switchAway others (own.resolve_left fun created => began created.1).2
    obtain ⟨created, eq⟩ | ⟨_, eq⟩ := switched
    · rw [eq]
      refine ⟨away.run, ?_⟩
      intro p known
      rw [← switchAway_currentTask] at created
      exact absurd ((away.started created).symm.trans known) nofun
    · rw [eq]
      exact ⟨away.run, fun p known => (away _ p known).2⟩

end Saved

theorem startFrame_context {r : TaskStruct} (edges : (f.edx, f.esi) = g r.stack r.entry) :
    (startFrame f r).context = startContext g r.stack r.entry := by
  rw [startContext, ← edges]
  rfl

theorem dispatch_starts
    (created : (s.tasks (dispatch f s).1.currentTask).state = .created) :
    (dispatch f s).2 = startFrame f (s.tasks (dispatch f s).1.currentTask) := by
  rw [dispatch_selects] at created ⊢
  obtain ⟨now, eq⟩ | ⟨began, switched⟩ := dispatch_cases f s
  · rw [eq, if_pos now]
    rfl
  · rw [if_neg began] at created ⊢
    have away : s.successor s.currentTask ≠ s.currentTask := by
      intro same
      exact began (same ▸ created)
    obtain ⟨_, eq⟩ | ⟨kept, _⟩ := switched
    · rw [eq]
      simp [startCurrent, switchAway_other away]
    · rw [switchAway_other away] at kept
      exact absurd created kept

/-- The dispatcher finds every record as `found` says, and selects as `selected` says. -/
theorem Removed.found (removed : Removed s s') (killed : (s.tasks s.currentTask).state = .killed)
    (t : Word) : s'.tasks t = { s.found t with next := (s'.tasks t).next } := by
  obtain rfl | other := eq_or_ne t s.currentTask
  · rw [Sched.found, if_pos ⟨killed, rfl⟩, removed.erased]
  · rw [Sched.found, if_neg fun both => other both.2]
    exact removed.kept t other

theorem Removed.selected (removed : Removed s s')
    (killed : (s.tasks s.currentTask).state = .killed) :
    s.selected = (dispatch f s').1.currentTask := by
  have turn : s.turn = s'.currentTask := (if_pos killed).trans removed.currentTask.symm
  rw [dispatch_selects, Sched.selected, turn, removed.found killed]
  obtain same | away := eq_or_ne s'.currentTask s.currentTask
  · have wiped : (s.found s'.currentTask).state = .created := by
      rw [Sched.found, if_pos ⟨killed, same⟩]
      rfl
    rw [if_pos wiped, if_pos wiped]
  · rw [removed.successor away]

theorem found_alive (alive : (s.tasks s.currentTask).state ≠ .killed) (t : Word) :
    s.found t = s.tasks t := if_neg fun both => alive both.1

theorem selected_alive (alive : (s.tasks s.currentTask).state ≠ .killed) :
    s.selected = (dispatch f (countTick s)).1.currentTask := by
  rw [dispatch_selects, Sched.selected, found_alive alive, Sched.turn, if_neg alive]
  rfl

theorem Saved.remove (saved : Saved s pre) (removed : Removed s s') :
    Saved s' (Function.update pre s.currentTask none) := by
  intro t p known
  obtain ⟨other, known⟩ := forget_eq_some.mp known
  rw [removed.kept t other]
  exact saved t p known

theorem Saved.tick_alive (saved : Saved s h.preempted)
    (edges : (s.found s.selected).state = .created →
      (f.edx, f.esi) = g (s.found s.selected).stack (s.found s.selected).entry)
    (alive : (s.tasks s.currentTask).state ≠ .killed) :
    Saved (Scheduler.dispatch f (countTick s)).1 (h.tick s f).preempted ∧
      TickKeeps (startContext g) s h f (Scheduler.dispatch f (countTick s)).1
        (Scheduler.dispatch f (countTick s)).2 := by
  have others : ∀ t, t ≠ s.currentTask → (h.tick s f).preempted t = h.preempted t := by
    intro t other
    rw [History.tick_alive alive]
    dsimp only
    split
    next => rfl
    next => exact Function.update_of_ne other ..
  have own : (s.tasks s.currentTask).state = .created ∧
        (h.tick s f).preempted s.currentTask = h.preempted s.currentTask ∨
      (s.tasks s.currentTask).state ≠ .created ∧
        ∀ p, (h.tick s f).preempted s.currentTask = some p → p = f := by
    rw [History.tick_alive alive]
    dsimp only
    split
    next created => exact .inl ⟨created, rfl⟩
    next began =>
      rw [Function.update_self]
      exact .inr ⟨began, fun p known => (Option.some.inj known).symm⟩
  have counted : Saved (countTick s) h.preempted := saved
  obtain ⟨saved', resumed⟩ := counted.dispatch others own
  refine ⟨saved', resumed, ?_⟩
  intro created
  rw [selected_alive alive] at edges
  rw [found_alive alive] at created edges ⊢
  rw [dispatch_starts (s := countTick s) created]
  exact startFrame_context (edges created)

theorem Saved.tick_killed (saved : Saved s h.preempted) (apart : FramesApart g (s, h) (.tick f))
    (killed : (s.tasks s.currentTask).state = .killed) (removed : Removed s s') :
    Saved (Scheduler.dispatch f s').1 (h.tick s f).preempted ∧
      TickKeeps (startContext g) s h f (Scheduler.dispatch f s').1
        (Scheduler.dispatch f s').2 := by
  obtain ⟨edges, noSaved⟩ := apart
  have wiped : (h.tick s f).preempted = Function.update h.preempted s.currentTask none := by
    rw [History.tick_killed killed]
  have erased : Saved s' (h.tick s f).preempted := wiped ▸ saved.remove removed
  have own : ∀ p, (h.tick s f).preempted s'.currentTask = some p → p = f := by
    intro p known
    rw [wiped] at known
    obtain ⟨-, known⟩ := forget_eq_some.mp known
    have turn : s.turn = s'.currentTask := (if_pos killed).trans removed.currentTask.symm
    rw [← turn] at known
    obtain none | same := noSaved killed
    · exact absurd (none.symm.trans known) nofun
    · exact Option.some.inj (known.symm.trans same)
  obtain ⟨saved', resumed⟩ := erased.dispatch (fun _ _ => rfl)
    ((em _).imp (fun created => ⟨created, rfl⟩) fun began => ⟨began, own⟩)
  refine ⟨saved', resumed, ?_⟩
  intro created
  rw [removed.selected killed] at edges
  have starts := dispatch_starts (f := f) (s := s') (by rwa [removed.found killed])
  rw [starts, removed.found killed]
  exact startFrame_context (edges created)

theorem Saved.tick (saved : Saved s h.preempted) (apart : FramesApart g (s, h) (.tick f))
    (run : sched fuel f s = .ok (s', out, calls)) :
    Saved s' (h.tick s f).preempted ∧ TickKeeps (startContext g) s h f s' out := by
  obtain ⟨s₁, _, rfl, rfl, ⟨alive, rfl⟩ | ⟨killed, done⟩⟩ := sched_cases run
  · exact saved.tick_alive apart.1 alive
  · exact saved.tick_killed apart killed (removeKilled_removed killed done)

theorem Saved.init (saved : Saved s pre) :
    Saved (schedInit task base entry name s) (Function.update pre task none) := by
  intro t p known
  obtain ⟨other, known⟩ := forget_eq_some.mp known
  simpa [schedInit, Function.update_of_ne other] using saved t p known

theorem Saved.create (saved : Saved s pre)
    (run : createTask fuel task base entry name s = .ok s') :
    Saved s' (Function.update pre task none) := by
  obtain ⟨tasks, last, others, _, _, _, _, _, records⟩ := createTask_ok run
  intro t p known
  obtain ⟨other, known⟩ := forget_eq_some.mp known
  have before := others t other
  rw [records]
  obtain rfl | away := eq_or_ne t last
  · rw [Function.update_self, before]
    exact saved t p known
  · rw [Function.update_of_ne away, before]
    exact saved t p known

theorem Saved.kill (saved : Saved s pre) (run : killTask fuel pid s = .ok s') :
    Saved s' pre := by
  obtain ⟨t, _, rfl⟩ := killTask_ok run
  split
  next => exact saved
  next =>
    intro u p known
    obtain rfl | other := eq_or_ne u t
    · rw [modify_same]
      exact ⟨nofun, (saved u p known).2⟩
    · rw [modify_other _ other]
      exact saved u p known

theorem reach_saved (run : kernel.Reach (FramesApart g) (s, h)) : Saved s h.preempted := by
  refine run.invariant (I := fun r => Saved r.1 r.2.preempted) ?_ ?_
  · rintro _ ⟨records, timerTick, task, base, idle, name, _, rfl⟩
    exact Saved.init fun _ _ known => nomatch known
  · rintro ⟨s, h⟩ a ⟨s', h'⟩ _ saved apart ⟨fuel, done⟩
    cases a with
    | init task base idle name =>
      cases done
      exact saved.init
    | create task base entry name =>
      obtain ⟨s₁, created, rest⟩ := bind_ok done
      cases rest
      exact saved.create created
    | kill pid =>
      obtain ⟨t, _, rest⟩ := bind_ok done
      obtain ⟨s₁, killed, rest⟩ := bind_ok rest
      cases rest
      dsimp only
      split
      all_goals exact saved.kill killed
    | tick frame =>
      obtain ⟨⟨s₁, left, calls⟩, ticked, rest⟩ := bind_ok done
      cases rest
      exact (saved.tick apart ticked).1

theorem contexts_kept (g : Word → Word → Word × Word) : ContextsKept (FramesApart g) := by
  refine ⟨startContext g, ?_⟩
  intro s h run f apart fuel s' out calls ticked
  exact ((reach_saved run).tick apart ticked).2

/-- An interrupted frame that is told apart by its instruction pointer. -/
def frameAt (eip : Word) : Registers := { zeroRegisters with eip := eip }

/-- Does this tick resume a task that was preempted with frame `p`? -/
def resumes (r : Sched × History) (f p : Registers) (ok : Registers → Bool) : Bool :=
  match sched 9 f r.1 with
  | .ok (s', out, _) => (r.2.tick r.1 f).preempted s'.currentTask = some p && ok out
  | .error _ => false

theorem resumes_tick {r : Sched × History} {p : Registers} {ok : Registers → Bool}
    (yes : resumes r f p ok = true) : ∃ s' out calls, sched 9 f r.1 = .ok (s', out, calls) ∧
      (r.2.tick r.1 f).preempted s'.currentTask = some p ∧ ok out = true := by
  unfold resumes at yes
  split at yes
  next s' out calls ticked =>
    obtain ⟨known, holds⟩ := Bool.and_eq_true_iff.mp yes
    exact ⟨s', out, calls, ticked, of_decide_eq_true known, holds⟩
  next => cases yes

/-- Two tasks take turns, and the first resumes where it was preempted. -/
theorem contexts_kept_turns : ∃ s h s' calls,
    kernel.Reach (FramesApart fun _ _ => (0, 0)) (s, h) ∧
      sched 9 (frameAt 3) s = .ok (s', frameAt 2, calls) := by
  have run : (performAll (FramesApart fun _ _ => (0, 0)) 9
      [.create 0x7000 0x8000 0x300 0x400, .tick (frameAt 1), .tick (frameAt 2)] booted).any
      (fun r => decide (FramesApart (fun _ _ => (0, 0)) r (.tick (frameAt 3))) &&
        resumes r (frameAt 3) (frameAt 2) fun _ => true) = true := by decide +kernel
  obtain ⟨s, h, reached, ends⟩ := performAll_ends run
  obtain ⟨apart, resumed⟩ := Bool.and_eq_true_iff.mp ends
  obtain ⟨s', out, calls, ticked, known, _⟩ := resumes_tick resumed
  obtain ⟨_, kept⟩ := contexts_kept fun _ _ => (0, 0)
  have keeps := kept s h reached _ (of_decide_eq_true apart) 9 s' out calls ticked
  exact ⟨s, h, s', calls, reached, keeps.resumed _ known ▸ ticked⟩

/-- What an interrupted task has in `edx` shows in the context of the first task. -/
theorem contexts_mixed : ¬ ContextsKept Fresh := by
  rintro ⟨start, kept⟩
  have first := (kept _ _ booted_reach zeroRegisters trivial 9 _ _ _ rfl).started rfl
  have second :=
    (kept _ _ booted_reach { zeroRegisters with edx := 1 } trivial 9 _ _ _ rfl).started rfl
  have same := congrArg Context.edx (first.trans second.symm)
  cases same

/-- Task 1 is killed and removed in front of task 2, which resumes with the frame of
task 1 and not with the frame of its own last preemption. -/
theorem removal_mixes_frames : ∃ s h s' out calls, kernel.Reach Fresh (s, h) ∧
    sched 9 (frameAt 7) s = .ok (s', out, calls) ∧
      (h.tick s (frameAt 7)).preempted s'.currentTask = some (frameAt 4) ∧ out = frameAt 6 := by
  have run : (performAll Fresh 9
      [.create 0x7000 0x8000 0x300 0x400, .create 0xD000 0xE000 0x300 0x400,
        .tick (frameAt 1), .tick (frameAt 2), .tick (frameAt 3), .tick (frameAt 4),
        .tick (frameAt 5), .kill 1, .tick (frameAt 6)] booted).any
      (fun r => resumes r (frameAt 7) (frameAt 4) (· = frameAt 6)) = true := by decide +kernel
  obtain ⟨s, h, reached, resumed⟩ := performAll_ends run
  obtain ⟨s', out, calls, ticked, known, left⟩ := resumes_tick resumed
  exact ⟨s, h, s', out, calls, reached, ticked, known, of_decide_eq_true left⟩

end X86Os.Scheduler
