import Mathlib.Data.Nat.ModEq
import X86Os.Scheduler.TaskList

/-!
# The order of the turns

While nothing is created or killed, every tick passes on to the next task of the
list, and from the last one to the root. The frames of the ticks do not matter,
nor which of the waiting tasks have been started before.
-/

namespace X86Os.Scheduler

open Library.Memory Library.PointerList
set_option autoImplicit false

variable {s : Sched} {regs : Registers} {l : List Word} {t : Word} {i j n : Nat}

def ticks (fuel : Nat) (frames : Nat → Registers) (s : Sched) : Nat → Except Halt Sched
  | 0 => .ok s
  | k + 1 => do
    let s ← ticks fuel frames s k
    let (s, _, _) ← sched fuel (frames k) s
    return s

/-- The running task stands at position `i` of a list of living tasks. -/
structure Turn (l : List Word) (s : Sched) (i : Nat) : Prop where
  list : Chain (fun t => (s.tasks t).next) 0 s.rootTask l
  alive : ∀ t ∈ l, (s.tasks t).state ≠ .killed
  here : l[i]? = some s.currentTask
  running : (s.tasks s.currentTask).state = .running

/-- The task behind position `i` of the list stands at the next position. -/
theorem Turn.successor (turn : Turn l s i) : l[(i + 1) % l.length]? = some (s.successor s.currentTask) := by
  obtain ⟨inside, at_i⟩ := List.getElem?_eq_some_iff.mp turn.here
  have split : l = l.take i ++ s.currentTask :: l.drop (i + 1) := by
    rw [← at_i, List.cons_getElem_drop_succ, List.take_append_drop]
  have link : (s.tasks s.currentTask).next = (l.drop (i + 1)).headD 0 :=
    Chain.next_eq (split ▸ turn.list)
  unfold Sched.successor
  rw [link]
  obtain more | last := Nat.lt_or_ge (i + 1) l.length
  · have next : (l.drop (i + 1)).headD 0 = l[i + 1] := by
      rw [List.drop_eq_getElem_cons more, List.headD_cons]
    have notNull : l[i + 1] ≠ 0 := by
      intro null
      exact turn.list.null_notMem (null ▸ List.getElem_mem more)
    rw [next, if_neg notNull, Nat.mod_eq_of_lt more, List.getElem?_eq_getElem more]
  · have back : (i + 1) % l.length = 0 := by
      have last : i + 1 = l.length := by omega
      rw [last, Nat.mod_self]
    rw [List.drop_of_length_le last, List.headD_nil, if_pos rfl, back, turn.list.head_eq]
    cases l with
    | nil => exact absurd inside (Nat.not_lt_zero _)
    | cons a l => rfl

theorem Turn.tick (turn : Turn l s i) (fuel : Nat) (regs : Registers) : ∃ s' out, sched fuel regs s = .ok (s', out, []) ∧
    Turn l s' ((i + 1) % l.length) := by
  have mem : s.currentTask ∈ l := List.mem_of_getElem? turn.here
  have notNull : s.currentTask ≠ 0 := by
    intro null
    exact turn.list.null_notMem (null ▸ mem)
  refine ⟨_, _, sched_alive (turn.alive _ mem) notNull, ?_⟩
  refine ⟨?_, ?_, ?_, dispatch_running⟩
  · rw [dispatch_rootTask]
    exact turn.list.congr fun t _ => dispatch_next
  · exact fun t ht => dispatch_alive (turn.alive t ht)
  · have began : ((countTick s).tasks (countTick s).currentTask).state ≠ .created := by
      show (s.tasks s.currentTask).state ≠ .created
      rw [turn.running]
      nofun
    rw [dispatch_selects, if_neg began]
    exact turn.successor

theorem Turn.ticks (turn : Turn l s i) (fuel : Nat) (frames : Nat → Registers) (k : Nat) :
    ∃ s', Scheduler.ticks fuel frames s k = .ok s' ∧ Turn l s' ((i + k) % l.length) := by
  induction k with
  | zero =>
    have inside : i < l.length := (List.getElem?_eq_some_iff.mp turn.here).1
    exact ⟨s, rfl, by rwa [Nat.add_zero, Nat.mod_eq_of_lt inside]⟩
  | succ k ih =>
    obtain ⟨s₁, ran, turn₁⟩ := ih
    obtain ⟨s₂, out, ticked, turn₂⟩ := turn₁.tick fuel (frames k)
    refine ⟨s₂, ?_, ?_⟩
    · rw [Scheduler.ticks, ran]
      show (sched fuel (frames k) s₁ >>= _) = _
      rw [ticked]
      rfl
    · rwa [Nat.mod_add_mod, Nat.add_assoc] at turn₂

theorem turn_unique {a b m : Nat} (same : (i + a) % n = (i + b) % n) (le : a ≤ b) (above : m < a)
    (most : b ≤ m + n) : a = b := by
  have congruent : a ≡ b [MOD n] := Nat.ModEq.add_left_cancel' i same
  have divides : n ∣ b - a := (Nat.modEq_iff_dvd' le).mp congruent
  have zero : b - a = 0 := Nat.eq_zero_of_dvd_of_lt divides (by omega)
  omega

/-- Among `n` consecutive numbers exactly one has a given remainder. -/
theorem exists_unique_turn (i m : Nat) (hj : j < n) :
    ∃! k, m < k ∧ k ≤ m + n ∧ (i + k) % n = j := by
  have pos : 0 < n := Nat.zero_lt_of_lt hj
  have below : (i + m + 1) % n < n := Nat.mod_lt _ pos
  have rest : (i + (m + 1 + (j + n - (i + m + 1) % n) % n)) % n = j := by
    calc (i + (m + 1 + (j + n - (i + m + 1) % n) % n)) % n
        = (i + m + 1 + (j + n - (i + m + 1) % n) % n) % n := by congr 1; ring
      _ = ((i + m + 1) % n + (j + n - (i + m + 1) % n)) % n := by rw [Nat.add_mod_mod, Nat.mod_add_mod]
      _ = (j + n) % n := by congr 1; omega
      _ = j := by rw [Nat.add_mod_right, Nat.mod_eq_of_lt hj]
  have most : (j + n - (i + m + 1) % n) % n < n := Nat.mod_lt _ pos
  refine ⟨m + 1 + (j + n - (i + m + 1) % n) % n, ⟨by omega, by omega, rest⟩, ?_⟩
  rintro k ⟨above, most', rest'⟩
  obtain le | le := Nat.le_total k (m + 1 + (j + n - (i + m + 1) % n) % n)
  · exact turn_unique (rest'.trans rest.symm) le above (by omega)
  · exact (turn_unique (rest.trans rest'.symm) le (by omega) most').symm

/-- Tick after tick the turn goes round the list, and in every round each task has it once. -/
theorem round_robin (turn : Turn l s i) (fuel : Nat) (frames : Nat → Registers) :
    (∀ k, ∃ s', Scheduler.ticks fuel frames s k = .ok s' ∧
      l[(i + k) % l.length]? = some s'.currentTask) ∧
    ∀ m, ∀ t ∈ l, ∃! k, m < k ∧ k ≤ m + l.length ∧
      ∃ s', Scheduler.ticks fuel frames s k = .ok s' ∧ s'.currentTask = t := by
  constructor
  · intro k
    obtain ⟨s', ran, turn'⟩ := turn.ticks fuel frames k
    exact ⟨s', ran, turn'.here⟩
  · intro m t ht
    obtain ⟨j, hj, rfl⟩ := List.getElem_of_mem ht
    have place (k : Nat) : (∃ s', Scheduler.ticks fuel frames s k = .ok s' ∧ s'.currentTask = l[j]) ↔
        (i + k) % l.length = j := by
      obtain ⟨s', ran, turn'⟩ := turn.ticks fuel frames k
      constructor
      · rintro ⟨s'', ran', current⟩
        cases ran.symm.trans ran'
        have here := turn'.here
        rw [current] at here
        obtain ⟨inside, eq⟩ := List.getElem?_eq_some_iff.mp here
        exact (turn.list.nodup.getElem_inj_iff).mp eq
      · intro at_j
        refine ⟨s', ran, ?_⟩
        have here := turn'.here
        rw [at_j, List.getElem?_eq_getElem hj] at here
        exact (Option.some.inj here).symm
    simp only [place]
    exact exists_unique_turn i m hj

/-- A running task in front of one that waits for its first turn. -/
def twoTasks : Sched where
  tasks t := if t = 0x1000 then { zeroTask with next := 0x7000, state := .running } else zeroTask
  rootTask := 0x1000
  currentTask := 0x1000
  nextpid := 2
  timerTick := 0

theorem twoTasks_turn : Turn [0x1000, 0x7000] twoTasks 0 where
  list := by
    refine Chain.cons_iff.mpr ⟨rfl, by decide, Chain.cons_iff.mpr ⟨rfl, by decide, ?_⟩⟩
    exact Chain.nil_iff.mpr rfl
  alive := by
    refine List.forall_mem_cons.mpr ⟨?_, List.forall_mem_singleton.mpr ?_⟩
    all_goals decide
  here := rfl
  running := rfl

theorem round_robin_two :
    ∃ s', ticks 0 (fun _ => zeroRegisters) twoTasks 3 = .ok s' ∧ s'.currentTask = 0x7000 := by
  obtain ⟨s', ran, here⟩ := (round_robin twoTasks_turn 0 fun _ => zeroRegisters).1 3
  have last : some (0x7000 : Word) = some s'.currentTask := here
  exact ⟨s', ran, (Option.some.inj last).symm⟩

end X86Os.Scheduler
