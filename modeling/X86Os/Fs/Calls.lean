import X86Os.Fs.FileContents

/-!
# Runs of the memory file system

A run is a list of writes and of new directories, each call with what memory
around the blocks holds while it goes on.
-/

namespace X86Os.Fs

open Library.Memory Libc Vfs
open Scheduler (bind_ok)
set_option autoImplicit false

inductive FileCall
  | write (w : FileWrite)
  | mkdir (path : CString) (env : Surroundings)

namespace FileCall

def path : FileCall → CString
  | write w => w.path
  | mkdir path _ => path

def env : FileCall → Surroundings
  | write w => w.env
  | mkdir _ env => env

def perform (fs : Tmpfs) : FileCall → Except Fault Tmpfs
  | write w => tmpfsWrite w.env fs w.path w.off w.buf
  | mkdir path env => tmpfsMkdir env fs path

end FileCall

def performCalls : List FileCall → Tmpfs → Except Fault Tmpfs
  | [], fs => .ok fs
  | c :: cs, fs => do performCalls cs (← c.perform fs)

/-- The path up to its terminator. -/
def TmpfsNode.storedPath (n : TmpfsNode) : List Byte := n.path.takeWhile (· ≠ 0)

variable {fs fs' : Tmpfs} {n n' : TmpfsNode} {c : FileCall} {cs : List FileCall}

theorem SameNode.storedPath (same : SameNode n n') : n'.storedPath = n.storedPath := by
  rw [TmpfsNode.storedPath, same.path, TmpfsNode.storedPath]

theorem call_outcome (linked : Linked fs) (done : c.perform fs = .ok fs') :
    ∃ target, Outcome c.env fs c.path fs' target := by
  cases c with
  | write w => exact write_outcome linked done
  | mkdir path env =>
    obtain ⟨fs₁, target, made, outcome⟩ := mkdir_outcome env path linked
    cases made.symm.trans done
    exact ⟨target, outcome⟩

theorem performCalls_linked (linked : Linked fs) (run : performCalls cs fs = .ok fs') :
    Linked fs' := by
  induction cs generalizing fs with
  | nil =>
    cases run
    exact linked
  | cons c cs ih =>
    obtain ⟨fs₁, first, rest⟩ := bind_ok run
    obtain ⟨_, outcome⟩ := call_outcome linked first
    exact ih outcome.linked rest

end X86Os.Fs
