import X86Os.Library.Runs
import X86Os.Scheduler.Steps

/-!
# Runs of the scheduler

A run starts behind `sched_init` and goes on with calls of the kernel in any
order. Each state carries a history that no function reads: which tasks there
should be, which records were freed, who was killed, and which frame was passed
in when a task was last preempted. An allocation may return anything; that it
returns a record of no task in the list is a condition on the calls of a run.
-/

namespace X86Os.Scheduler

open Library.Memory Library.Runs
set_option autoImplicit false

inductive KernelCall
  | init (task base idle name : Word)
  | create (task base entry name : Word)
  | kill (pid : Word)
  | tick (frame : Registers)

/-- `tasks` lists the tasks created since the last `sched_init` and not removed, the
oldest first. -/
structure History where
  tasks : List Word
  freed : List Word
  killed : List Word
  preempted : Word → Option Registers

/-- What is known of a record after another one was forgotten. -/
theorem forget_eq_some {α : Type} {known : Word → Option α} {t u : Word} {a : α} :
    Function.update known t none u = some a ↔ u ≠ t ∧ known u = some a := by
  obtain rfl | other := eq_or_ne u t
  · simp
  · simp [other]

namespace History

def allocate (h : History) (task : Word) (tasks : List Word) : History where
  tasks := tasks
  freed := h.freed.filter (· ≠ task)
  killed := h.killed.filter (· ≠ task)
  preempted := Function.update h.preempted task none

/-- A killed task that is current is removed. Otherwise it is preempted, unless it
has yet to start. -/
def tick (h : History) (s : Sched) (frame : Registers) : History :=
  match (s.tasks s.currentTask).state with
  | .killed =>
    { h with
      tasks := h.tasks.erase s.currentTask, freed := s.currentTask :: h.freed,
      preempted := Function.update h.preempted s.currentTask none }
  | .created => h
  | _ => { h with preempted := Function.update h.preempted s.currentTask (some frame) }

theorem tick_killed {h : History} {s : Sched} {frame : Registers}
    (killed : (s.tasks s.currentTask).state = .killed) :
    h.tick s frame =
      { h with
        tasks := h.tasks.erase s.currentTask, freed := s.currentTask :: h.freed,
        preempted := Function.update h.preempted s.currentTask none } := by
  simp only [tick, killed]

theorem tick_alive {h : History} {s : Sched} {frame : Registers}
    (alive : (s.tasks s.currentTask).state ≠ .killed) :
    h.tick s frame =
      { h with
        preempted := if (s.tasks s.currentTask).state = .created then h.preempted
          else Function.update h.preempted s.currentTask (some frame) } := by
  cases state : (s.tasks s.currentTask).state with
  | killed => exact absurd state alive
  | _ => simp [tick, state]

theorem tick_keeps_killed {h : History} {s : Sched} {frame : Registers} :
    (h.tick s frame).killed = h.killed := by
  unfold tick
  cases (s.tasks s.currentTask).state <;> rfl

def empty : History := ⟨[], [], [], fun _ => none⟩

end History

def perform (fuel : Nat) (s : Sched) (h : History) : KernelCall → Except Halt (Sched × History)
  | .init task base idle name => return (schedInit task base idle name s, h.allocate task [task])
  | .create task base entry name => do
    let s ← createTask fuel task base entry name s
    return (s, h.allocate task (h.tasks ++ [task]))
  | .kill pid => do
    let found ← findTask s.tasks pid fuel s.rootTask
    let s ← killTask fuel pid s
    return (s, if found = 0 then h else { h with killed := found :: h.killed })
  | .tick frame => do
    let (s', _, _) ← sched fuel frame s
    return (s', h.tick s frame)

/-- The call gets a record that belongs to no task of the list. The `new` of this kernel is its
`malloc`, which answers every request that it refuses with the same `(void *)-1`. -/
def Fresh (r : Sched × History) : KernelCall → Prop
  | .init task _ _ _ => task ≠ 0
  | .create task _ _ _ => task ≠ 0 ∧ task ∉ r.2.tasks
  | _ => True

instance (r : Sched × History) : (a : KernelCall) → Decidable (Fresh r a)
  | .init task _ _ _ => inferInstanceAs (Decidable (task ≠ 0))
  | .create task _ _ _ => inferInstanceAs (Decidable (task ≠ 0 ∧ task ∉ r.2.tasks))
  | .kill _ => inferInstanceAs (Decidable True)
  | .tick _ => inferInstanceAs (Decidable True)

/-- The condition `guard` on a step, and every allocation is granted. -/
def Granted (guard : Sched × History → KernelCall → Prop) (r : Sched × History) (a : KernelCall) :
    Prop := Fresh r a ∧ guard r a

instance {guard : Sched × History → KernelCall → Prop} [∀ r a, Decidable (guard r a)]
    (r : Sched × History) (a : KernelCall) : Decidable (Granted guard r a) :=
  inferInstanceAs (Decidable (Fresh r a ∧ guard r a))

/-- The globals are zero before `sched_init`; the memory may hold anything. -/
def kernel : System (Sched × History) KernelCall where
  init r := ∃ records timerTick task base idle name, task ≠ 0 ∧
    r = (schedInit task base idle name ⟨records, 0, 0, 0, timerTick⟩,
      History.empty.allocate task [task])
  step r a r' := ∃ fuel, perform fuel r.1 r.2 a = .ok r'

def performAll (guard : Sched × History → KernelCall → Prop) [∀ r a, Decidable (guard r a)]
    (fuel : Nat) : List KernelCall → Sched × History → Option (Sched × History)
  | [], r => some r
  | a :: calls, r =>
    if guard r a then
      match perform fuel r.1 r.2 a with
      | .ok r => performAll guard fuel calls r
      | .error _ => none
    else none

theorem performAll_reach {guard : Sched × History → KernelCall → Prop}
    [∀ r a, Decidable (guard r a)] {fuel : Nat} {calls : List KernelCall}
    {r r' : Sched × History} (start : kernel.Reach guard r)
    (run : performAll guard fuel calls r = some r') : kernel.Reach guard r' := by
  induction calls generalizing r with
  | nil => cases run; exact start
  | cons a calls ih =>
    rw [performAll] at run
    split at run
    next allowed =>
      split at run
      next r₁ done => exact ih (start.next allowed ⟨fuel, done⟩) run
      next => cases run
    next => cases run

def booted : Sched × History :=
  (schedInit 0x1000 0x2000 0x100 0x200 ⟨fun _ => zeroTask, 0, 0, 0, 0⟩,
    History.empty.allocate 0x1000 [0x1000])

theorem booted_reach {guard : Sched × History → KernelCall → Prop} :
    kernel.Reach guard booted :=
  .start ⟨_, _, _, _, _, _, by decide, rfl⟩

theorem performAll_ends {guard : Sched × History → KernelCall → Prop}
    [∀ r a, Decidable (guard r a)] {fuel : Nat} {calls : List KernelCall}
    {P : Sched × History → Bool} (run : (performAll guard fuel calls booted).any P = true) :
    ∃ s h, kernel.Reach guard (s, h) ∧ P (s, h) = true := by
  cases done : performAll guard fuel calls booted with
  | none => rw [done] at run; cases run
  | some r =>
    rw [done] at run
    exact ⟨r.1, r.2, performAll_reach booted_reach done, run⟩

end X86Os.Scheduler
