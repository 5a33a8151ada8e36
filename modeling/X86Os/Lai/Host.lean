import X86Os.Library.Memory

/-!
# How calls into the AML interpreter end

The interpreter under lai/ never returns an error from its containers: a broken
assertion ends in `lai_panic`. An access outside of a table is kept apart from
that, and so is what follows a refused request: base/core/cxx_support.cpp gets
its blocks from `malloc`, whose refusal is `(void *)-1`, and the tests against
null let this pass.
-/

namespace X86Os.Lai

open Library.Memory
set_option autoImplicit false

inductive Stop
  | ensure
  | refused
  | wild
  deriving DecidableEq, Repr

def laiEnsure (cond : Prop) [Decidable cond] : Except Stop Unit :=
  if cond then .ok () else .error .ensure

/-- Every request that fits into the address space is taken to be served. The model ends with
any other, since the caller would go on with the block at -1. -/
def laihostMalloc (bytes : Nat) : Except Stop Unit :=
  if bytes < 2 ^ 32 then .ok () else .error .refused

/-- A table of pointers moves into a new block, with the first `oldSize` bytes. -/
def laihostRealloc {α : Type} (newSize oldSize : Nat) (table : List α) : Except Stop (List α) := do
  laihostMalloc newSize
  .ok (table.take (oldSize / 4))

def readAt {α : Type} (table : List α) (i : Nat) : Except Stop α :=
  match table[i]? with
  | none => .error .wild
  | some x => .ok x

@[simp] theorem laiEnsure_of {cond : Prop} [Decidable cond] (holds : cond) : laiEnsure cond = .ok () :=
  if_pos holds

theorem readAt_of {α : Type} {table : List α} {i : Nat} {x : α} (found : table[i]? = some x) :
    readAt table i = .ok x := by
  rw [readAt, found]

/-- Peeling the first call off a sequence that returned. -/
theorem bind_eq_ok {ε α β : Type} {x : Except ε α} {f : α → Except ε β} {b : β} :
    x >>= f = .ok b ↔ ∃ a, x = .ok a ∧ f a = .ok b := by
  cases x with
  | error e => simp [bind, Except.bind]
  | ok a => simp [bind, Except.bind]

theorem ok_bind {ε α β : Type} {a : α} {f : α → Except ε β} : (Except.ok a >>= f) = f a := rfl

theorem laiEnsure_eq_ok {cond : Prop} [Decidable cond] {u : Unit} :
    laiEnsure cond = .ok u ↔ cond := by
  rw [laiEnsure]
  split_ifs with holds <;> simp [holds]

end X86Os.Lai
