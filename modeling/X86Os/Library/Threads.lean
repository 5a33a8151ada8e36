import X86Os.Library.Runs
import Mathlib.Algebra.Order.BigOperators.Group.Finset
import Mathlib.Data.Fintype.BigOperators

/-!
# Threads that run one program over shared state

Every step is the step of one thread: it reads and writes the shared state and
the state of that thread alone. What the threads have together is counted by a
sum over all of them, and a step changes one term of it.
-/

namespace Library.Threads

open Library.Runs
set_option autoImplicit false

variable {ι S L A : Type*} [DecidableEq ι]

structure Config (ι S L : Type*) where
  shared : S
  thread : ι → L

namespace Config

def put (c : Config ι S L) (i : ι) (r : S × L) : Config ι S L :=
  ⟨r.1, Function.update c.thread i r.2⟩

variable {c : Config ι S L} {i j : ι} {r : S × L}

@[simp] theorem put_shared : (c.put i r).shared = r.1 := rfl

@[simp] theorem put_same : (c.put i r).thread i = r.2 := Function.update_self ..

theorem put_of_ne (other : j ≠ i) : (c.put i r).thread j = c.thread j :=
  Function.update_of_ne other ..

/-- What the threads have together. -/
def tally [Fintype ι] (weight : L → ℕ) (c : Config ι S L) : ℕ := ∑ i, weight (c.thread i)

theorem tally_put [Fintype ι] (weight : L → ℕ) :
    (c.put i r).tally weight + weight (c.thread i) = c.tally weight + weight r.2 := by
  have others : ∑ j ∈ Finset.univ.erase i, weight ((c.put i r).thread j) =
      ∑ j ∈ Finset.univ.erase i, weight (c.thread j) :=
    Finset.sum_congr rfl fun j member => by rw [put_of_ne (Finset.ne_of_mem_erase member)]
  rw [tally, tally, ← Finset.add_sum_erase _ _ (Finset.mem_univ i),
    ← Finset.add_sum_erase _ _ (Finset.mem_univ i), others, put_same]
  omega

omit [DecidableEq ι] in
theorem tally_eq_zero [Fintype ι] {weight : L → ℕ} :
    c.tally weight = 0 ↔ ∀ i, weight (c.thread i) = 0 := by
  rw [tally, Finset.sum_eq_zero_iff]
  exact ⟨fun all i => all i (Finset.mem_univ i), fun all i _ => all i⟩

end Config

/-! ### Exclusive threads -/

section exclusive

variable (holds : L → Prop) (free : S → Prop) (taken : S → L → Prop)

/-- No thread holds and the shared state is free, or one thread holds and the shared state is taken
by it. -/
def Exclusive (c : Config ι S L) : Prop :=
  (∀ i, ¬holds (c.thread i)) ∧ free c.shared ∨
    ∃ i, holds (c.thread i) ∧ (∀ j, j ≠ i → ¬holds (c.thread j)) ∧ taken c.shared (c.thread i)

variable {holds free taken} {c : Config ι S L} {i j : ι} {r : S × L}

namespace Exclusive

omit [DecidableEq ι] in
theorem of_holds (own : Exclusive holds free taken c) (here : holds (c.thread i)) :
    (∀ j, j ≠ i → ¬holds (c.thread j)) ∧ taken c.shared (c.thread i) := by
  obtain ⟨nobody, _⟩ | ⟨k, _, others, taken⟩ := own
  · exact absurd here (nobody i)
  · obtain rfl | other := eq_or_ne i k
    · exact ⟨others, taken⟩
    · exact absurd here (others i other)

omit [DecidableEq ι] in
theorem unique (own : Exclusive holds free taken c) (first : holds (c.thread i))
    (second : holds (c.thread j)) : i = j := by
  by_contra other
  exact (own.of_holds second).1 i other first

omit [DecidableEq ι] in
theorem of_nobody (own : Exclusive holds free taken c) (nobody : ∀ i, ¬holds (c.thread i)) :
    free c.shared := by
  obtain ⟨_, free⟩ | ⟨k, here, _⟩ := own
  · exact free
  · exact absurd here (nobody k)

/-- A step of a thread that does not hold, before or after. -/
theorem outside (own : Exclusive holds free taken c) (before : ¬holds (c.thread i))
    (after : ¬holds r.2) (stillFree : free c.shared → free r.1)
    (stillTaken : ∀ l, taken c.shared l → taken r.1 l) : Exclusive holds free taken (c.put i r) := by
  obtain ⟨nobody, unclaimed⟩ | ⟨k, here, others, claimed⟩ := own
  · refine .inl ⟨fun j => ?_, stillFree unclaimed⟩
    obtain rfl | other := eq_or_ne j i
    · rwa [Config.put_same]
    · rw [Config.put_of_ne other]
      exact nobody j
  · have different : k ≠ i := by
      rintro rfl
      exact before here
    refine .inr ⟨k, ?_, fun j other => ?_, ?_⟩
    · rwa [Config.put_of_ne different]
    · obtain rfl | moved := eq_or_ne j i
      · rwa [Config.put_same]
      · rw [Config.put_of_ne moved]
        exact others j other
    · rw [Config.put_of_ne different]
      exact stillTaken _ claimed

/-- A step after which the thread holds alone. -/
theorem of_put (others : ∀ j, j ≠ i → ¬holds (c.thread j)) (after : holds r.2)
    (claimed : taken r.1 r.2) : Exclusive holds free taken (c.put i r) := by
  refine .inr ⟨i, by rwa [Config.put_same], fun j other => ?_, by rwa [Config.put_same]⟩
  rw [Config.put_of_ne other]
  exact others j other

theorem acquire (own : Exclusive holds free taken c) (unclaimed : ∀ l, ¬taken c.shared l)
    (after : holds r.2) (claimed : taken r.1 r.2) : Exclusive holds free taken (c.put i r) := by
  obtain ⟨nobody, _⟩ | ⟨k, _, _, other⟩ := own
  · exact of_put (fun j _ => nobody j) after claimed
  · exact absurd other (unclaimed _)

theorem inside (own : Exclusive holds free taken c) (before : holds (c.thread i))
    (after : holds r.2) (claimed : taken c.shared (c.thread i) → taken r.1 r.2) :
    Exclusive holds free taken (c.put i r) :=
  of_put (own.of_holds before).1 after (claimed (own.of_holds before).2)

theorem release (own : Exclusive holds free taken c) (before : holds (c.thread i))
    (after : ¬holds r.2) (freed : taken c.shared (c.thread i) → free r.1) :
    Exclusive holds free taken (c.put i r) := by
  obtain ⟨others, claimed⟩ := own.of_holds before
  refine .inl ⟨fun j => ?_, freed claimed⟩
  obtain rfl | other := eq_or_ne j i
  · rwa [Config.put_same]
  · rw [Config.put_of_ne other]
    exact others j other

end Exclusive

end exclusive

/-- All interleavings of threads that run `exec`, one step at a time. The label tells which thread
takes which step. -/
def interleave (initial : S → Prop) (idle : L) (exec : A → S → L → Option (S × L)) :
    System (Config ι S L) (ι × A) where
  init c := initial c.shared ∧ ∀ i, c.thread i = idle
  step c a c' := ∃ r, exec a.2 c.shared (c.thread a.1) = some r ∧ c' = c.put a.1 r

end Library.Threads
