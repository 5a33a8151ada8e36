import Mathlib.Logic.Function.Basic
import X86Os.Library.Memory

/-!
# The task list and the scheduler of base/core/scheduler.cpp

A `task_struct` is found through its address; the null pointer is 0. The bytes of
the stacks are not part of these records, so `sched` reports what it asks of
`memset` and of the allocator as a list of calls. Every list walk takes fuel and
fails when the fuel does not suffice, as the C loop then may never end.
-/

namespace X86Os.Scheduler

open Library.Memory
set_option autoImplicit false

structure Registers where
  ds : Word
  edi : Word
  esi : Word
  ebp : Word
  esp : Word
  ebx : Word
  edx : Word
  ecx : Word
  eax : Word
  intNo : Word
  errCode : Word
  eip : Word
  cs : Word
  eflags : Word
  useresp : Word
  ss : Word
  deriving DecidableEq

inductive TaskState
  | created
  | running
  | pending
  | killed
  deriving DecidableEq

structure TaskStruct where
  pid : Word
  name : Word
  regs : Registers
  stack : Word
  entry : Word
  next : Word
  state : TaskState

def zeroRegisters : Registers := ⟨0, 0, 0, 0, 0, 0, 0, 0, 0, 0, 0, 0, 0, 0, 0, 0⟩

/-- What `memset(t, 0, sizeof(task_struct))` leaves; `TASK_CREATED` is 0. -/
def zeroTask : TaskStruct := ⟨0, 0, zeroRegisters, 0, 0, 0, .created⟩

/-- The globals of the scheduler and the records that pointers to `task_struct` denote. -/
structure Sched where
  tasks : Word → TaskStruct
  rootTask : Word
  currentTask : Word
  nextpid : Word
  timerTick : Word

def Sched.modify (s : Sched) (t : Word) (f : TaskStruct → TaskStruct) : Sched :=
  { s with tasks := Function.update s.tasks t (f (s.tasks t)) }

inductive Halt
  | panic (message : String)
  | loops

/-- The effects of `sched` on memory outside the records. -/
inductive MemoryCall
  | memset (p : Word) (n : Nat)
  | free (p : Word)

def sizeofTaskStruct : Nat := 88

def stackSize : Nat := 16384

def findTask (tasks : Word → TaskStruct) (pid : Word) : Nat → Word → Except Halt Word
  | 0, _ => .error .loops
  | fuel + 1, task =>
    if task = 0 then .ok 0
    else if (tasks task).pid = pid then .ok task
    else findTask tasks pid fuel (tasks task).next

def killTask (fuel : Nat) (pid : Word) (s : Sched) : Except Halt Sched := do
  let task ← findTask s.tasks pid fuel s.rootTask
  if task = 0 then return s
  return s.modify task fun t => { t with state := .killed }

/-- The body of the unlinking loop: a task in front of `current` is pointed past it. -/
def unlinkAt (current : Word) (tasks : Word → TaskStruct) (t : Word) : Word → TaskStruct :=
  if (tasks t).next = current then
    Function.update tasks t { tasks t with next := (tasks current).next }
  else tasks

def unlinkLoop (current : Word) : Nat → (Word → TaskStruct) → Word →
    Except Halt (Word → TaskStruct)
  | 0, _, _ => .error .loops
  | fuel + 1, tasks, t =>
    if t = 0 then .ok tasks
    else unlinkLoop current fuel (unlinkAt current tasks t) (unlinkAt current tasks t t).next

def removeKilled (fuel : Nat) (s : Sched) : Except Halt (Sched × List MemoryCall) :=
  if (s.tasks s.currentTask).state = .killed then do
    let tasks ← unlinkLoop s.currentTask fuel s.tasks s.rootTask
    let t := s.currentTask
    let stack := (tasks t).stack
    return ({ s with tasks := Function.update tasks t zeroTask, currentTask := (tasks t).next },
      [.memset stack stackSize, .free stack, .memset t sizeofTaskStruct, .free t])
  else return (s, [])

/-- The frame for a first start. `edx`, `esi` and the other fields stay as they were. -/
def startFrame (regs : Registers) (t : TaskStruct) : Registers :=
  { regs with eax := 0, ebx := 0, edi := 0, ecx := 0, ebp := 0, esp := t.stack, eip := t.entry }

def startCurrent (regs : Registers) (s : Sched) : Sched × Registers :=
  (s.modify s.currentTask fun t => { t with state := .running },
    startFrame regs (s.tasks s.currentTask))

/-- The task behind `t`, and the root behind the last one. -/
def Sched.successor (s : Sched) (t : Word) : Word :=
  if (s.tasks t).next = 0 then s.rootTask else (s.tasks t).next

def savePreempted (regs : Registers) (s : Sched) : Sched :=
  s.modify s.currentTask fun t => { t with regs := regs, state := .pending }

def switchAway (regs : Registers) (s : Sched) : Sched :=
  let s := savePreempted regs s
  { s with currentTask := s.successor s.currentTask }

def resumeCurrent (s : Sched) : Sched × Registers :=
  (s.modify s.currentTask fun t => { t with state := .running }, (s.tasks s.currentTask).regs)

def dispatch (regs : Registers) (s : Sched) : Sched × Registers :=
  if (s.tasks s.currentTask).state = .created then startCurrent regs s
  else
    let s := switchAway regs s
    if (s.tasks s.currentTask).state = .created then startCurrent regs s else resumeCurrent s

def countTick (s : Sched) : Sched := { s with timerTick := s.timerTick + 1 }

def noMoreProcesses : String := "Scheduler: No more processes. Is PID 1 killed?"

def sched (fuel : Nat) (regs : Registers) (s : Sched) :
    Except Halt (Sched × Registers × List MemoryCall) := do
  let (s, calls) ← removeKilled fuel (countTick s)
  if s.currentTask = 0 then throw (.panic noMoreProcesses)
  let (s, regs) := dispatch regs s
  return (s, regs, calls)

def tailTask (tasks : Word → TaskStruct) : Nat → Word → Except Halt Word
  | 0, _ => .error .loops
  | fuel + 1, idk =>
    if (tasks idk).next = 0 then .ok idk else tailTask tasks fuel (tasks idk).next

def fillTask (base entry name pid : Word) (t : TaskStruct) : TaskStruct :=
  { t with
    entry := entry, name := name, stack := base + BitVec.ofNat 32 stackSize, next := 0,
    state := .created, pid := pid }

/-- `task` and `base` are what the two `new` expressions return. -/
def createTask (fuel : Nat) (task base entry name : Word) (s : Sched) : Except Halt Sched := do
  let s := { s.modify task (fillTask base entry name s.nextpid) with nextpid := s.nextpid + 1 }
  let last ← tailTask s.tasks fuel s.rootTask
  return s.modify last fun t => { t with next := task }

/-- `idle` and `name` are the addresses of the idle function and of its name. -/
def schedInit (task base idle name : Word) (s : Sched) : Sched :=
  { s with
    tasks := Function.update s.tasks task
      { zeroTask with
        entry := idle, stack := base + BitVec.ofNat 32 stackSize, name := name, pid := s.nextpid,
        state := .created }
    currentTask := task
    rootTask := task
    nextpid := s.nextpid + 1 }

end X86Os.Scheduler
