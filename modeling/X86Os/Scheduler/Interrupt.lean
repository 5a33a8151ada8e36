import X86Os.Heap.Malloc
import X86Os.Scheduler.Steps

/-!
# The timer interrupt as the machine takes it

The CPU, `isr_stub_32` and `exception_handler` push a frame, `irq_handler` calls
`sched` on it, and the way back pops it. Kernel code is interrupted in ring 0, so
neither the interrupt nor `iret` touches `useresp` and `ss`: those two fields of
the frame are the two words above the interrupted stack pointer.
-/

namespace X86Os.Scheduler

open Library.Memory
set_option autoImplicit false

structure Cpu where
  eax : Word
  ecx : Word
  edx : Word
  ebx : Word
  esp : Word
  ebp : Word
  esi : Word
  edi : Word
  eip : Word
  cs : Word
  eflags : Word
  ds : BitVec 16

structure Machine where
  cpu : Cpu
  mem : Mem
  sched : Sched

def push (r : Word × Mem) (v : Word) : Word × Mem := (r.1 - 4, store32 r.2 (r.1 - 4) v)

/-- The frame of the CPU, error code and number from the stub, `pusha`, and `ds` over the
low half of `eax`. -/
def enter (c : Cpu) (m : Mem) : Word × Mem :=
  [c.eflags, c.cs, c.eip, 0, 32, c.eax, c.ecx, c.edx, c.ebx, c.esp - 20, c.ebp, c.esi, c.edi,
    c.eax.extractLsb' 16 16 ++ c.ds].foldl push (c.esp, m)

def Registers.words (r : Registers) : List Word :=
  [r.ds, r.edi, r.esi, r.ebp, r.esp, r.ebx, r.edx, r.ecx, r.eax, r.intNo, r.errCode, r.eip, r.cs,
    r.eflags, r.useresp, r.ss]

def loadRegisters (m : Mem) (p : Word) : Registers :=
  ⟨load32 m p, load32 m (p + 4), load32 m (p + 8), load32 m (p + 12), load32 m (p + 16),
    load32 m (p + 20), load32 m (p + 24), load32 m (p + 28), load32 m (p + 32), load32 m (p + 36),
    load32 m (p + 40), load32 m (p + 44), load32 m (p + 48), load32 m (p + 52), load32 m (p + 56),
    load32 m (p + 60)⟩

def storeRegisters (m : Mem) (p : Word) (r : Registers) : Mem :=
  storeBytes m p (r.words.flatMap wordBytes)

def MemoryCall.apply (m : Mem) : MemoryCall → Mem
  | .memset p n => fill m p 0 n
  | .free p => Heap.free m p

/-- `sched` with the frame in memory at `regs`. -/
def schedAt (fuel : Nat) (regs : Word) (m : Mem) (s : Sched) : Except Halt (Sched × Mem) := do
  let (s, calls) ← removeKilled fuel (countTick s)
  if s.currentTask = 0 then throw (.panic noMoreProcesses)
  let m := calls.foldl MemoryCall.apply m
  let (s, left) := dispatch (loadRegisters m regs) s
  return (s, storeRegisters m regs left)

/-- `pop ebx`, `popa` past the saved `esp`, `add esp, 8` and `iret`. -/
def leave (m : Mem) (p : Word) : Cpu :=
  let r := loadRegisters m p
  { eax := r.eax, ecx := r.ecx, edx := r.edx, ebx := r.ebx, esp := p + 56, ebp := r.ebp,
    esi := r.esi, edi := r.edi, eip := r.eip, cs := r.cs, eflags := r.eflags,
    ds := r.ds.extractLsb' 0 16 }

/-- The frame that `irq_handler` gets, and the memory then. `handler` is what its call
leaves on the stack below the frame. -/
def interruptFrame (handler : List Byte) (m : Machine) : Word × Mem :=
  let (regs, mem) := enter m.cpu m.mem
  (regs, storeBytes mem (regs - BitVec.ofNat 32 handler.length) handler)

def timerInterrupt (fuel : Nat) (handler : List Byte) (m : Machine) : Except Halt Machine := do
  let (regs, mem) := interruptFrame handler m
  let (s, mem) ← schedAt fuel regs mem m.sched
  return ⟨leave mem regs, mem, s⟩

variable {s s' : Sched} {m m' : Machine} {mem mem' : Mem} {fuel : Nat} {handler : List Byte}
variable {p x : Word}

theorem enter_esp (c : Cpu) (m : Mem) : (enter c m).1 = c.esp - 56 := by
  simp only [enter, List.foldl, push]
  ring

theorem interruptFrame_fst : (interruptFrame handler m).1 = m.cpu.esp - 56 := enter_esp ..

theorem schedAt_ok (run : schedAt fuel p mem s = .ok (s', mem')) :
    ∃ calls out, sched fuel (loadRegisters (calls.foldl MemoryCall.apply mem) p) s =
        .ok (s', out, calls) ∧
      mem' = storeRegisters (calls.foldl MemoryCall.apply mem) p out := by
  obtain ⟨⟨s₁, calls⟩, removed, rest⟩ := bind_ok run
  refine ⟨calls, (dispatch (loadRegisters (calls.foldl MemoryCall.apply mem) p) s₁).2, ?_⟩
  rw [sched, removed]
  dsimp only at rest
  split at rest
  next => cases rest
  next notNull =>
    cases rest
    exact ⟨if_neg notNull, rfl⟩

theorem timerInterrupt_ok (run : timerInterrupt fuel handler m = .ok m') :
    m'.cpu.esp = m.cpu.esp ∧
      schedAt fuel (m.cpu.esp - 56) (interruptFrame handler m).2 m.sched =
        .ok (m'.sched, m'.mem) := by
  obtain ⟨⟨s, mem⟩, ran, rest⟩ := bind_ok run
  have left : m' = ⟨leave mem (interruptFrame handler m).1, mem, s⟩ := (Except.ok.inj rest).symm
  have frame : (interruptFrame handler m).1 = m.cpu.esp - 56 := interruptFrame_fst
  rw [left, ← frame]
  exact ⟨by simp [leave, frame], ran⟩

/-- A returning frame leaves the memory as the entry left it. -/
theorem storeRegisters_loadRegisters (m : Mem) (p : Word) :
    storeRegisters m p (loadRegisters m p) = m := by
  have bytes : (loadRegisters m p).words.flatMap wordBytes = loadBytes m p 64 := by
    simp [loadRegisters, Registers.words, wordBytes_load32, loadBytes, List.range, List.range.loop,
      add_assoc]
  rw [storeRegisters, bytes, storeBytes_loadBytes]

theorem foldl_push_outside {vs : List Word} {r : Word × Mem}
    (outside : 4 * vs.length ≤ (r.1 - 1 - x).toNat) : (vs.foldl push r).2 x = r.2 x := by
  induction vs generalizing r with
  | nil => rfl
  | cons v vs ih =>
    rw [List.length_cons] at outside
    rw [List.foldl_cons, ih]
    · exact store32_outside (by unfold Covers; bv_omega)
    · have below : (push r v).1 - 1 - x = r.1 - 1 - x - 4 := by
        rw [push]
        ring
      rw [below]
      bv_omega

end X86Os.Scheduler
