import X86Os.Scheduler.Interrupt
import X86Os.Scheduler.TaskList

/-!
# Whose stack the CPU is on after a tick

The way back from the interrupt leaves `esp` where it was, whatever `sched` put
into the frame. So a tick is right for the task that it leaves running if and
only if it returns to the task that it interrupted. The runs here start from any
task list; between the ticks programs may do what they like with the CPU and the
memory, as long as each stays on the stack that it was given.
-/

namespace X86Os.Scheduler

open Library.Memory Library.Runs
set_option autoImplicit false

variable {s s' : Sched} {m m' : Machine} {last last' : Word → Option Word} {l : List Word}
variable {fuel : Nat} {handler : List Byte} {t u e e' x : Word}

structure Stack where
  bottom : Nat
  top : Nat

namespace Stack

variable {a b : Stack}

def Apart (a b : Stack) : Prop := a.top ≤ b.bottom ∨ b.top ≤ a.bottom

def Holds (a : Stack) (e : Word) : Prop := a.bottom < e.toNat ∧ e.toNat ≤ a.top

def Owns (a : Stack) (x : Word) : Prop := a.bottom ≤ x.toNat ∧ x.toNat < a.top

theorem Apart.pointers (apart : Apart a b) (here : a.Holds e) (there : b.Holds e') : e ≠ e' := by
  rintro rfl
  unfold Apart Holds at *
  omega

end Stack

variable {boot : Stack}

def Sched.ownStack (s : Sched) (t : Word) : Stack :=
  ⟨(s.tasks t).stack.toNat - stackSize, (s.tasks t).stack.toNat⟩

/-- The stack of the interrupted code. Before the current task has started that is the
code that booted. -/
def Sched.stackInUse (boot : Stack) (s : Sched) : Stack :=
  if (s.tasks s.currentTask).state = .created then boot else s.ownStack s.currentTask

/-- A task list whose tasks have a stack each; `last` tells where each was interrupted. -/
structure Laid (boot : Stack) (l : List Word) (s : Sched) (last : Word → Option Word) : Prop
    extends Linked s l where
  current : s.currentTask ∈ l
  deep : ∀ t ∈ l, stackSize ≤ (s.tasks t).stack.toNat
  apart : ∀ t ∈ l, ∀ u ∈ l, t ≠ u → (s.ownStack t).Apart (s.ownStack u)
  bootApart : ∀ t ∈ l, boot.Apart (s.ownStack t)
  lastHeld : ∀ t ∈ l, ∀ e, last t = some e → (s.ownStack t).Holds e

def Sched.ownEsp (s : Sched) (last : Word → Option Word) (t : Word) : Word :=
  (last t).getD (s.tasks t).stack

/-- A tick notes where the current task is interrupted and forgets a task it removes. -/
def noteEsp (m : Machine) (last : Word → Option Word) : Word → Option Word :=
  match (m.sched.tasks m.sched.currentTask).state with
  | .created => last
  | .killed => Function.update last m.sched.currentTask none
  | _ => Function.update last m.sched.currentTask (some m.cpu.esp)

structure SwitchOk (l : List Word) (m : Machine) (last : Word → Option Word) (m' : Machine) :
    Prop where
  esp : m'.cpu.esp = m'.sched.ownEsp (noteEsp m last) m'.sched.currentTask
  others : ∀ t ∈ l, t ≠ m'.sched.currentTask → ∀ x, (m.sched.ownStack t).Owns x → m'.mem x = m.mem x

/-- The interrupted code left room for the frame and for the handler. -/
def Room (boot : Stack) (m : Machine) (handler : List Byte) : Prop :=
  (m.sched.stackInUse boot).bottom + 56 + handler.length ≤ m.cpu.esp.toNat ∧
    m.cpu.esp.toNat ≤ (m.sched.stackInUse boot).top

inductive MachineCall
  | execute
  | tick (handler : List Byte)

inductive MachineStep (boot : Stack) :
    Machine × (Word → Option Word) → MachineCall → Machine × (Word → Option Word) → Prop
  | execute {m : Machine} {last : Word → Option Word} (cpu : Cpu) (mem : Mem) :
      MachineStep boot (m, last) .execute (⟨cpu, mem, m.sched⟩, last)
  | tick {m m' : Machine} {last : Word → Option Word} {handler : List Byte} {fuel : Nat}
      (room : Room boot m handler) (done : timerInterrupt fuel handler m = .ok m') :
      MachineStep boot (m, last) (.tick handler) (m', noteEsp m last)

def machine (boot : Stack) (l : List Word) :
    System (Machine × (Word → Option Word)) MachineCall where
  init r := Laid boot l r.1.sched r.2
  step := MachineStep boot

/-- The tick interrupts a started task that is alive and is its own successor. -/
def Returns : Machine × (Word → Option Word) → MachineCall → Prop
  | (m, _), .tick _ =>
    (m.sched.tasks m.sched.currentTask).state ≠ .created ∧
      (m.sched.tasks m.sched.currentTask).state ≠ .killed ∧
      m.sched.successor m.sched.currentTask = m.sched.currentTask
  | _, _ => True

theorem Room.holds (room : Room boot m handler) :
    (m.sched.stackInUse boot).Holds m.cpu.esp := by
  unfold Room at room
  unfold Stack.Holds
  omega

namespace Laid

theorem ownEsp_held (laid : Laid boot l s last) (ht : t ∈ l) :
    (s.ownStack t).Holds (s.ownEsp last t) := by
  unfold Sched.ownEsp
  cases known : last t with
  | some e => exact laid.lastHeld t ht e known
  | none =>
    have deep := laid.deep t ht
    simp only [Stack.Holds, Sched.ownStack, Option.getD_none, stackSize] at deep ⊢
    omega

theorem ne_ownEsp (laid : Laid boot l s last) (ht : t ∈ l) (hu : u ∈ l) (other : u ≠ t)
    (held : (s.ownStack t).Holds e) : e ≠ s.ownEsp last u :=
  (laid.apart t ht u hu other.symm).pointers held (laid.ownEsp_held hu)

end Laid

theorem ownEsp_congr (stack : (s'.tasks t).stack = (s.tasks t).stack)
    (noted : last' t = last t) : s'.ownEsp last' t = s.ownEsp last t := by
  rw [Sched.ownEsp, Sched.ownEsp, stack, noted]

theorem counted_stack {f : Registers} :
    ((dispatch f (countTick s)).1.tasks t).stack = (s.tasks t).stack :=
  dispatch_stack (s := countTick s)

theorem noteEsp_created (created : (m.sched.tasks m.sched.currentTask).state = .created) :
    noteEsp m last = last := by simp only [noteEsp, created]

theorem noteEsp_killed (killed : (m.sched.tasks m.sched.currentTask).state = .killed) :
    noteEsp m last = Function.update last m.sched.currentTask none := by
  simp only [noteEsp, killed]

theorem noteEsp_running (alive : (m.sched.tasks m.sched.currentTask).state ≠ .killed)
    (started : (m.sched.tasks m.sched.currentTask).state ≠ .created) :
    noteEsp m last = Function.update last m.sched.currentTask (some m.cpu.esp) := by
  cases state : (m.sched.tasks m.sched.currentTask).state with
  | killed => exact absurd state alive
  | created => exact absurd state started
  | _ => simp only [noteEsp, state]

section WrongStack

variable {f : Registers} {calls : List MemoryCall}

/-- The first task would start on the stack of the code that booted. -/
theorem start_wrong (laid : Laid boot l m.sched last)
    (held : (m.sched.stackInUse boot).Holds m.cpu.esp)
    (created : (m.sched.tasks m.sched.currentTask).state = .created) :
    m.cpu.esp ≠ (dispatch f (countTick m.sched)).1.ownEsp (noteEsp m last)
      (dispatch f (countTick m.sched)).1.currentTask := by
  have selects : (dispatch f (countTick m.sched)).1.currentTask = m.sched.currentTask :=
    dispatch_selects.trans (if_pos created)
  rw [selects, ownEsp_congr counted_stack (congrFun (noteEsp_created created) _)]
  rw [Sched.stackInUse, if_pos created] at held
  exact (laid.bootApart _ laid.current).pointers held (laid.ownEsp_held laid.current)

/-- A task that is switched to stays on the stack of its predecessor. -/
theorem switch_wrong (laid : Laid boot l m.sched last)
    (held : (m.sched.stackInUse boot).Holds m.cpu.esp)
    (alive : (m.sched.tasks m.sched.currentTask).state ≠ .killed)
    (started : (m.sched.tasks m.sched.currentTask).state ≠ .created)
    (away : m.sched.successor m.sched.currentTask ≠ m.sched.currentTask) :
    m.cpu.esp ≠ (dispatch f (countTick m.sched)).1.ownEsp (noteEsp m last)
      (dispatch f (countTick m.sched)).1.currentTask := by
  have noted : noteEsp m last (m.sched.successor m.sched.currentTask) =
      last (m.sched.successor m.sched.currentTask) := by
    rw [noteEsp_running alive started, Function.update_of_ne away]
  have selects : (dispatch f (countTick m.sched)).1.currentTask =
      m.sched.successor m.sched.currentTask := dispatch_selects.trans (if_neg started)
  rw [selects, ownEsp_congr counted_stack noted]
  rw [Sched.stackInUse, if_neg started] at held
  exact laid.ne_ownEsp laid.current (laid.successor_mem laid.current) away held

theorem removal_wrong (laid : Laid boot l m.sched last)
    (held : (m.sched.stackInUse boot).Holds m.cpu.esp)
    (killed : (m.sched.tasks m.sched.currentTask).state = .killed)
    (removed : Removed m.sched s) (notNull : s.currentTask ≠ 0) :
    m.cpu.esp ≠ (dispatch f s).1.ownEsp (noteEsp m last) (dispatch f s).1.currentTask := by
  have current : s.currentTask ∈ l := by
    rw [removed.currentTask] at notNull ⊢
    exact (laid.list.next_mem laid.current).resolve_left notNull
  have away : s.currentTask ≠ m.sched.currentTask := by
    rw [removed.currentTask]
    exact laid.next_ne laid.current
  have selected : (dispatch f s).1.currentTask ∈ l := by
    rw [dispatch_selects, removed.successor away]
    split
    next => exact current
    next => exact laid.successor_mem current
  rw [Sched.stackInUse, if_neg (by rw [killed]; nofun)] at held
  obtain same | other := eq_or_ne (dispatch f s).1.currentTask m.sched.currentTask
  · -- The head was removed, and its wiped record has no stack.
    have wiped : (dispatch f s).1.ownEsp (noteEsp m last) m.sched.currentTask = 0 := by
      rw [Sched.ownEsp, noteEsp_killed killed, Function.update_self, dispatch_stack, removed.erased]
      rfl
    rw [same, wiped]
    rintro zero
    rw [zero] at held
    exact absurd held.1 (Nat.not_lt_zero _)
  · have stack : ((dispatch f s).1.tasks (dispatch f s).1.currentTask).stack =
        (m.sched.tasks (dispatch f s).1.currentTask).stack := by
      rw [dispatch_stack, removed.kept _ other]
    have noted : noteEsp m last (dispatch f s).1.currentTask =
        last (dispatch f s).1.currentTask := by
      rw [noteEsp_killed killed, Function.update_of_ne other]
    rw [ownEsp_congr stack noted]
    exact laid.ne_ownEsp laid.current selected other held

theorem returns_of_esp (laid : Laid boot l m.sched last)
    (held : (m.sched.stackInUse boot).Holds m.cpu.esp) {out : Registers}
    (run : sched fuel f m.sched = .ok (s', out, calls))
    (esp : m.cpu.esp = s'.ownEsp (noteEsp m last) s'.currentTask) :
    Returns (m, last) (.tick handler) := by
  obtain ⟨s₁, notNull, rfl, rfl, ⟨alive, rfl⟩ | ⟨killed, done⟩⟩ := sched_cases run
  · have started : (m.sched.tasks m.sched.currentTask).state ≠ .created := by
      intro created
      exact start_wrong laid held created esp
    refine ⟨started, alive, ?_⟩
    obtain self | away := eq_or_ne (m.sched.successor m.sched.currentTask) m.sched.currentTask
    · exact self
    · exact absurd esp (switch_wrong laid held alive started away)
  · exact absurd esp (removal_wrong laid held killed (removeKilled_removed killed done) notNull)

end WrongStack

/-- The frame and the handler lie on the stack of the interrupted task. -/
theorem interruptFrame_outside {a b : Stack}
    (room : a.bottom + 56 + handler.length ≤ m.cpu.esp.toNat ∧ m.cpu.esp.toNat ≤ a.top)
    (apart : a.Apart b) (hx : b.Owns x) : (interruptFrame handler m).2 x = m.mem x := by
  have he := m.cpu.esp.isLt
  have hlen : (BitVec.ofNat 32 handler.length).toNat = handler.length := by
    rw [BitVec.toNat_ofNat, Nat.mod_eq_of_lt (by omega)]
  have h56 : (56 : Word).toNat = 56 := rfl
  have h1 : (1 : Word).toNat = 1 := rfl
  unfold Stack.Apart at apart
  unfold Stack.Owns at hx
  have below : ¬ Covers ((enter m.cpu m.mem).1 - BitVec.ofNat 32 handler.length)
      handler.length x := by
    rw [enter_esp, covers_iff]
    all_goals
      rw [BitVec.toNat_sub, BitVec.toNat_sub, hlen, h56]
      omega
  have above : 56 ≤ (m.cpu.esp - 1 - x).toNat := by
    rw [BitVec.toNat_sub, BitVec.toNat_sub, h1]
    omega
  calc (interruptFrame handler m).2 x = (enter m.cpu m.mem).2 x := storeBytes_outside below
    _ = m.mem x := foldl_push_outside (r := (m.cpu.esp, m.mem)) above

/-- A returning tick hands the frame back and edits no more than the current record. -/
theorem sched_returns {f out : Registers} {calls : List MemoryCall} (laid : Laid boot l s last)
    (alive : (s.tasks s.currentTask).state ≠ .killed)
    (started : (s.tasks s.currentTask).state ≠ .created)
    (self : s.successor s.currentTask = s.currentTask)
    (run : sched fuel f s = .ok (s', out, calls)) :
    calls = [] ∧ out = f ∧ s' = (dispatch f (countTick s)).1 ∧
      s'.currentTask = s.currentTask := by
  rw [sched_alive alive (laid.ne_zero laid.current)] at run
  cases run
  obtain ⟨same, current⟩ := dispatch_self (s := countTick s) started self
  exact ⟨rfl, same, rfl, current⟩

/-- The layout outlasts edits that keep the links and the stacks, and a note of a pointer
into the stack of its task. -/
theorem Laid.note (laid : Laid boot l s last) (linked : Linked s' l)
    (current : s'.currentTask = s.currentTask) (t : Word)
    (stack : ∀ u, (s'.tasks u).stack = (s.tasks u).stack) (held : (s.ownStack t).Holds e) :
    Laid boot l s' (Function.update last t (some e)) := by
  have sameStack : ∀ u, s'.ownStack u = s.ownStack u := by
    intro u
    rw [Sched.ownStack, Sched.ownStack, stack]
  refine ⟨linked, current ▸ laid.current, ?_, ?_, ?_, ?_⟩
  · intro u hu
    rw [stack]
    exact laid.deep u hu
  · intro u hu v hv other
    rw [sameStack, sameStack]
    exact laid.apart u hu v hv other
  · intro u hu
    rw [sameStack]
    exact laid.bootApart u hu
  · intro u hu e' known
    rw [sameStack]
    obtain rfl | other := eq_or_ne u t
    · rw [Function.update_self] at known
      exact Option.some.inj known ▸ held
    · rw [Function.update_of_ne other] at known
      exact laid.lastHeld u hu e' known

theorem switch_returns (laid : Laid boot l m.sched last) (room : Room boot m handler)
    (returns : Returns (m, last) (.tick handler))
    (done : timerInterrupt fuel handler m = .ok m') :
    SwitchOk l m last m' ∧ Laid boot l m'.sched (noteEsp m last) := by
  obtain ⟨started, alive, self⟩ := returns
  obtain ⟨esp, ran⟩ := timerInterrupt_ok done
  obtain ⟨calls, out, ticked, mem⟩ := schedAt_ok ran
  obtain ⟨rfl, rfl, ends, current⟩ := sched_returns laid alive started self ticked
  rw [List.foldl_nil, storeRegisters_loadRegisters] at mem
  have noted : noteEsp m last = Function.update last m.sched.currentTask (some m.cpu.esp) :=
    noteEsp_running alive started
  have inUse : m.sched.stackInUse boot = m.sched.ownStack m.sched.currentTask := if_neg started
  have held := room.holds
  unfold Room at room
  rw [inUse] at room held
  refine ⟨⟨?_, ?_⟩, ?_⟩
  · rw [esp, current, Sched.ownEsp, noted, Function.update_self, Option.getD_some]
  · intro t ht other x hx
    rw [current] at other
    rw [mem]
    exact interruptFrame_outside room (laid.apart _ laid.current t ht other.symm) hx
  · have linked : Linked m'.sched l := by
      rw [ends]
      exact laid.toLinked.congr (dispatch_rootTask (s := countTick m.sched))
        fun t _ => dispatch_next (s := countTick m.sched)
    rw [noted]
    refine laid.note linked current _ ?_ held
    intro t
    rw [ends, counted_stack]

theorem reach_laid {r : Machine × (Word → Option Word)}
    (run : (machine boot l).Reach Returns r) : Laid boot l r.1.sched r.2 := by
  refine run.invariant (I := fun r => Laid boot l r.1.sched r.2) (fun _ laid => laid) ?_
  intro r a r' _ laid returns move
  cases move with
  | execute cpu mem => exact laid
  | tick room done => exact (switch_returns laid room returns done).2

/-- A tick is right for the tasks of the list if and only if it returns to the task that
it interrupted. -/
theorem switch_ok_iff (run : (machine boot l).Reach Returns (m, last))
    (room : Room boot m handler) (done : timerInterrupt fuel handler m = .ok m') :
    SwitchOk l m last m' ↔ Returns (m, last) (.tick handler) := by
  have laid := reach_laid run
  constructor
  · intro ok
    obtain ⟨esp, ran⟩ := timerInterrupt_ok done
    obtain ⟨calls, out, ticked, _⟩ := schedAt_ok ran
    exact returns_of_esp laid room.holds ticked (esp.symm.trans ok.esp)
  · intro returns
    exact (switch_returns laid room returns done).1

def cpuAt (esp : Word) : Cpu := ⟨0, 0, 0, 0, esp, 0, 0, 0, 0, 8, 0x202, 0x10⟩

def taskAt (stack next : Word) (state : TaskState) : TaskStruct :=
  { zeroTask with stack := stack, next := next, state := state }

def soloMachine : Machine :=
  ⟨cpuAt 0x5F00, fun _ => 0, fun _ => taskAt 0x6000 0 .running, 0x1000, 0x1000, 1, 0⟩

theorem soloMachine_laid : Laid ⟨0, 0⟩ [0x1000] soloMachine.sched fun _ => none where
  list := ⟨⟨rfl, rfl⟩, by decide⟩
  once := List.nodup_singleton _
  current := List.mem_singleton_self _
  deep := List.forall_mem_singleton.mpr (by decide)
  apart t ht u hu other := by
    rw [List.mem_singleton.mp ht, List.mem_singleton.mp hu] at other
    exact absurd rfl other
  bootApart _ _ := .inl (Nat.zero_le _)
  lastHeld _ _ _ known := nomatch known

theorem switch_ok_solo : ∃ m', timerInterrupt 3 [] soloMachine = .ok m' ∧
    SwitchOk [0x1000] soloMachine (fun _ => none) m' := by
  obtain ⟨m', done⟩ : ∃ m', timerInterrupt 3 [] soloMachine = .ok m' := ⟨_, rfl⟩
  have iff := switch_ok_iff (.start soloMachine_laid) ⟨by decide, by decide⟩ done
  exact ⟨m', done, iff.mpr ⟨nofun, nofun, rfl⟩⟩

/-- A second task waits, interrupted at 0xBF00. -/
def pairMachine : Machine :=
  ⟨cpuAt 0x5F00, fun _ => 0,
    fun t => if t = 0x1000 then taskAt 0x6000 0x7000 .running else taskAt 0xC000 0 .pending,
    0x1000, 0x1000, 2, 0⟩

def pairLast : Word → Option Word := fun t => if t = 0x7000 then some 0xBF00 else none

theorem pairMachine_laid : Laid ⟨0, 0⟩ [0x1000, 0x7000] pairMachine.sched pairLast where
  list := ⟨⟨rfl, rfl, rfl⟩, by decide⟩
  once := by decide
  current := List.mem_cons_self
  deep := by
    rw [List.forall_mem_cons, List.forall_mem_singleton]
    exact ⟨by decide, by decide⟩
  apart t ht u hu other := by
    simp only [List.mem_cons, List.not_mem_nil, or_false] at ht hu
    obtain rfl | rfl := ht <;> obtain rfl | rfl := hu
    · exact absurd rfl other
    · exact .inl (by decide)
    · exact .inr (by decide)
    · exact absurd rfl other
  bootApart _ _ := .inl (Nat.zero_le _)
  lastHeld t ht e known := by
    obtain ⟨rfl, rfl⟩ : t = 0x7000 ∧ 0xBF00 = e := by simpa [pairLast] using known
    exact ⟨by decide, by decide⟩

/-- A tick resumes the second task on the stack of the first. -/
theorem switch_keeps_stack : ∃ m', Laid ⟨0, 0⟩ [0x1000, 0x7000] pairMachine.sched pairLast ∧
    Room ⟨0, 0⟩ pairMachine [] ∧ timerInterrupt 3 [] pairMachine = .ok m' ∧
    m'.sched.currentTask = 0x7000 ∧ ¬ SwitchOk [0x1000, 0x7000] pairMachine pairLast m' := by
  refine ⟨_, pairMachine_laid, ⟨by decide, by decide⟩, rfl, rfl, ?_⟩
  intro ok
  exact absurd ok.esp (by decide)

end X86Os.Scheduler
