import X86Os.Lai.Mutex
import Mathlib.Data.Nat.Bitwise

/-!
# The event of AML code

`Wait`, `Signal` and `Reset` end in the `lai_event_…` functions of
lai/core/exec_impl.h. The event counts signals that nobody has waited for yet,
or its highest bit says that threads wait. Every signal is consumed by one
successful wait, thrown away by a reset, or still counted.
-/

namespace X86Os.Lai

open Library.Memory Library.Runs Library.Threads
set_option autoImplicit false

def eventCount : Word := 0x7FFFFFFF

def eventWaiters : Word := 0x80000000

inductive EventPc
  | outside
  | waiting (v : Word)
  | blocking (v : Word)
  | signalling (v : Word)
  | waking
  | resetting (v : Word)
  | panicked (why : Panic)
  deriving DecidableEq

/-- The first loads, the turns of the loops, the return of `laihost_sync_wait` and the call of
`laihost_sync_wake`. -/
inductive EventAct
  | loadWait
  | waitTurn
  | wait (timedOut : Bool)
  | loadSignal
  | signalTurn
  | wake
  | loadReset
  | resetTurn

def waitTurn (val v : Word) : Word × EventPc :=
  if v &&& eventCount ≠ 0 then
    if v &&& eventWaiters ≠ 0 then (val, .panicked .assertion)
    else if val = v then (v - 1, .outside) else (val, .waiting val)
  else if v &&& eventWaiters = 0 then
    if val = v then (eventWaiters, .blocking v) else (val, .waiting val)
  else (val, .blocking v)

def signalTurn (val v : Word) : Word × EventPc :=
  if v &&& eventWaiters = 0 then
    if (v + 1) &&& ~~~eventCount ≠ 0 then (val, .panicked .assertion)
    else if val = v then (v + 1, .outside) else (val, .signalling val)
  else if v &&& eventCount ≠ 0 then (val, .panicked .assertion)
  else if val = v then (1, .waking) else (val, .signalling val)

def resetTurn (val v : Word) : Word × EventPc :=
  if v &&& eventWaiters = 0 then
    if v &&& eventCount ≠ 0 then
      if val = v then (0, .outside) else (val, .resetting val)
    else (val, .outside)
  else if v &&& eventCount ≠ 0 then (val, .panicked .assertion)
  else (val, .outside)

def eventExec (canWait : Bool) : EventAct → Word → EventPc → Option (Word × EventPc)
  | .loadWait, val, .outside => some (val, .waiting val)
  | .waitTurn, val, .waiting v => some (waitTurn val v)
  | .wait timedOut, val, .blocking v =>
    if canWait then some (val, if timedOut then .outside else .waiting v)
    else some (val, .panicked .unsupported)
  | .loadSignal, val, .outside => some (val, .signalling val)
  | .signalTurn, val, .signalling v => some (signalTurn val v)
  | .wake, val, .waking => some (val, if canWait then .outside else .panicked .unsupported)
  | .loadReset, val, .outside => some (val, .resetting val)
  | .resetTurn, val, .resetting v => some (resetTurn val v)
  | _, _, _ => none

def pending (val : Word) : ℕ := (val &&& eventCount).toNat

structure Served where
  waits : ℕ
  signals : ℕ
  discarded : ℕ

/-- A wait that returned 0, a signal that was entered, and what a reset cleared. -/
def observe (before : Word) (a : EventAct) (after : Word) (pc : EventPc) (h : Served) : Served :=
  match a, pc with
  | .waitTurn, .outside => { h with waits := h.waits + 1 }
  | .signalTurn, .outside => { h with signals := h.signals + 1 }
  | .signalTurn, .waking => { h with signals := h.signals + 1 }
  | .resetTurn, .outside => { h with discarded := h.discarded + (pending before - pending after) }
  | _, _ => h

variable {ι : Type} [DecidableEq ι] {canWait : Bool} {val v : Word}

def eventRuns (canWait : Bool) : System (Config ι Word EventPc × Served) (ι × EventAct) :=
  (interleave (· = 0) .outside (eventExec canWait)).tracked (fun _ => ⟨0, 0, 0⟩)
    fun c a c' h => observe c.shared a.2 c'.shared (c'.thread a.1) h

/-! ### The word of the event -/

/-- A count, or the bit for waiters alone. -/
def EventWord (val : Word) : Prop := val = eventWaiters ∨ val.toNat < 2 ^ 31

theorem pending_eq (val : Word) : pending val = val.toNat % 2 ^ 31 := by
  rw [pending, BitVec.toNat_and]
  exact Nat.and_two_pow_sub_one_eq_mod val.toNat 31

theorem and_waiters (val : Word) : val &&& eventWaiters = 0 ↔ val.toNat < 2 ^ 31 := by
  rw [← BitVec.toNat_inj, BitVec.toNat_and]
  have bit : val.toNat &&& 2 ^ 31 = (val.toNat.testBit 31).toNat * 2 ^ 31 := Nat.and_two_pow _ _
  have top := val.isLt
  change val.toNat &&& 2 ^ 31 = 0 ↔ _
  rw [bit, Nat.testBit_eq_decide_div_mod_eq]
  grind

theorem and_count (val : Word) : val &&& eventCount = 0 ↔ pending val = 0 := by
  rw [pending, ← BitVec.toNat_inj]
  rfl

theorem pending_of_lt (few : val.toNat < 2 ^ 31) : pending val = val.toNat := by
  rw [pending_eq, Nat.mod_eq_of_lt few]

theorem pending_waiters : pending eventWaiters = 0 := rfl

theorem pending_sub_one (some_ : pending v ≠ 0) (few : v.toNat < 2 ^ 31) :
    (v - 1).toNat < 2 ^ 31 ∧ pending (v - 1) + 1 = pending v := by
  rw [pending_of_lt few] at some_ ⊢
  have down : (v - 1).toNat = v.toNat - 1 := by bv_omega
  rw [pending_of_lt (by omega), down]
  omega

theorem pending_add_one (few : v.toNat < 2 ^ 31) (room : (v + 1).toNat < 2 ^ 31) :
    pending (v + 1) = pending v + 1 := by
  rw [pending_of_lt few, pending_of_lt room]
  bv_omega

/-! ### One step -/

def Accounted (val : Word) (h : Served) : Prop :=
  EventWord val ∧ h.waits + pending val + h.discarded = h.signals

/-- A thread's variable is a value that the event had once. An assertion fails only when the count
is exhausted. -/
def EventPc.Known (canWait : Bool) (signals : ℕ) : EventPc → Prop
  | .outside | .waking => True
  | .waiting v | .blocking v | .signalling v | .resetting v => EventWord v ∧ pending v ≤ signals
  | .panicked .assertion => 2 ^ 31 ≤ signals + 1
  | .panicked .unsupported => canWait = false

theorem EventPc.Known.mono {pc : EventPc} {signals signals' : ℕ} (known : pc.Known canWait signals)
    (more : signals ≤ signals') : pc.Known canWait signals' := by
  cases pc with
  | outside | waking => trivial
  | waiting | blocking | signalling | resetting => exact ⟨known.1, known.2.trans more⟩
  | panicked why =>
    cases why with
    | assertion => exact known.trans (Nat.add_le_add_right more 1)
    | unsupported => exact known

def Keeps (canWait : Bool) (a : EventAct) (val : Word) (h : Served) (r : Word × EventPc) : Prop :=
  Accounted r.1 (observe val a r.1 r.2 h) ∧ h.signals ≤ (observe val a r.1 r.2 h).signals ∧
    r.2.Known canWait (observe val a r.1 r.2 h).signals

variable {h : Served}

/-- A step that leaves the word alone. -/
theorem keeps_same {a : EventAct} {pc : EventPc} (accounted : Accounted val h)
    (quiet : observe val a val pc h = h) (known : pc.Known canWait h.signals) :
    Keeps canWait a val h (val, pc) := by
  rw [Keeps, quiet]
  exact ⟨accounted, le_rfl, known⟩

theorem Accounted.known (accounted : Accounted val h) : EventWord val ∧ pending val ≤ h.signals :=
  ⟨accounted.1, by have := accounted.2; omega⟩

theorem waitTurn_keeps (accounted : Accounted val h) (known : EventWord v ∧ pending v ≤ h.signals) :
    Keeps canWait .waitTurn val h (waitTurn val v) := by
  obtain ⟨rfl | few, upto⟩ := known
  · exact keeps_same accounted rfl ⟨.inl rfl, upto⟩
  have noWaiters := (and_waiters v).mpr few
  obtain none_ | some_ := eq_or_ne (pending v) 0
  · rw [waitTurn, if_neg (not_not.mpr ((and_count v).mpr none_)), if_pos noWaiters]
    split_ifs with same
    · subst same
      refine ⟨⟨.inl rfl, ?_⟩, le_rfl, .inr few, upto⟩
      have balance := accounted.2
      dsimp only [observe]
      rw [pending_waiters]
      omega
    · exact keeps_same accounted rfl accounted.known
  · rw [waitTurn, if_pos ((and_count v).not.mpr some_), if_neg (not_not.mpr noWaiters)]
    split_ifs with same
    · subst same
      obtain ⟨fewer, down⟩ := pending_sub_one some_ few
      refine ⟨⟨.inr fewer, ?_⟩, le_rfl, trivial⟩
      have balance := accounted.2
      dsimp only [observe]
      omega
    · exact keeps_same accounted rfl accounted.known

theorem signalTurn_keeps (accounted : Accounted val h) (known : EventWord v ∧ pending v ≤ h.signals) :
    Keeps canWait .signalTurn val h (signalTurn val v) := by
  have balance := accounted.2
  obtain ⟨rfl | few, upto⟩ := known
  · rw [signalTurn, if_neg (by decide), if_neg (by decide)]
    split_ifs with same
    · subst same
      refine ⟨⟨.inr (by decide), ?_⟩, Nat.le_succ _, trivial⟩
      rw [pending_waiters] at balance
      dsimp only [observe]
      rw [show pending 1 = 1 from rfl]
      omega
    · exact keeps_same accounted rfl accounted.known
  rw [signalTurn, if_pos ((and_waiters v).mpr few),
    show ~~~eventCount = eventWaiters from by decide, ite_not]
  obtain room | full := lt_or_ge (v + 1).toNat (2 ^ 31)
  · rw [if_pos ((and_waiters _).mpr room)]
    split_ifs with same
    · subst same
      refine ⟨⟨.inr room, ?_⟩, Nat.le_succ _, trivial⟩
      rw [pending_add_one few room]
      dsimp only [observe]
      omega
    · exact keeps_same accounted rfl accounted.known
  · rw [if_neg ((and_waiters _).not.mpr (Nat.not_lt_of_le full))]
    refine keeps_same accounted rfl ?_
    rw [pending_of_lt few] at upto
    have last : (v + 1).toNat = v.toNat + 1 := by bv_omega
    exact full.trans (by omega)

theorem resetTurn_keeps (accounted : Accounted val h) (known : EventWord v ∧ pending v ≤ h.signals) :
    Keeps canWait .resetTurn val h (resetTurn val v) := by
  have balance := accounted.2
  have unchanged : observe val .resetTurn val .outside h = h := by
    rw [observe, Nat.sub_self, Nat.add_zero]
  obtain ⟨rfl | few, upto⟩ := known
  · exact keeps_same accounted unchanged trivial
  rw [resetTurn, if_pos ((and_waiters v).mpr few)]
  split_ifs with none_ same
  · subst same
    refine ⟨⟨.inr (by decide), ?_⟩, le_rfl, trivial⟩
    dsimp only [observe]
    rw [show pending 0 = 0 from rfl]
    omega
  · exact keeps_same accounted rfl accounted.known
  · exact keeps_same accounted unchanged trivial

theorem eventExec_keeps {a : EventAct} {pc : EventPc} {r : Word × EventPc}
    (accounted : Accounted val h) (known : pc.Known canWait h.signals)
    (moved : eventExec canWait a val pc = some r) : Keeps canWait a val h r := by
  unfold eventExec at moved
  split at moved
  · cases moved
    exact keeps_same accounted rfl accounted.known
  · obtain rfl := Option.some.inj moved
    exact waitTurn_keeps accounted known
  · split_ifs at moved with able timedOut
    · cases moved
      exact keeps_same accounted rfl trivial
    · cases moved
      exact keeps_same accounted rfl known
    · cases moved
      exact keeps_same accounted rfl (Bool.eq_false_of_not_eq_true able)
  · cases moved
    exact keeps_same accounted rfl accounted.known
  · obtain rfl := Option.some.inj moved
    exact signalTurn_keeps accounted known
  · obtain rfl := Option.some.inj moved
    cases canWait with
    | true => exact keeps_same accounted rfl trivial
    | false => exact keeps_same accounted rfl rfl
  · cases moved
    exact keeps_same accounted rfl accounted.known
  · obtain rfl := Option.some.inj moved
    exact resetTurn_keeps accounted known
  · cases moved

theorem accounted_of_run {guard : Config ι Word EventPc × Served → ι × EventAct → Prop}
    {c : Config ι Word EventPc} (run : (eventRuns canWait).Reach guard (c, h)) :
    Accounted c.shared h ∧ ∀ i, (c.thread i).Known canWait h.signals := by
  apply run.invariant
    (I := fun s => Accounted s.1.shared s.2 ∧ ∀ i, (s.1.thread i).Known canWait s.2.signals)
  · rintro ⟨c, h⟩ ⟨⟨zero, outside⟩, none_⟩
    dsimp only at zero outside none_ ⊢
    rw [none_, zero]
    refine ⟨⟨.inr (by decide), rfl⟩, fun i => ?_⟩
    rw [outside i]
    trivial
  · rintro ⟨c, h⟩ ⟨i, a⟩ ⟨c', h'⟩ _ ⟨accounted, known⟩ _ ⟨⟨r, moved, after⟩, history⟩
    dsimp only at accounted known moved after history ⊢
    obtain ⟨accounted', more, mine⟩ := eventExec_keeps accounted (known i) moved
    rw [after, Config.put_shared, Config.put_same] at history
    rw [history, after]
    refine ⟨accounted', fun j => ?_⟩
    obtain rfl | other := eq_or_ne j i
    · rwa [Config.put_same]
    · rw [Config.put_of_ne other]
      exact (known j).mono more

/-- In every interleaving each signal was consumed by one successful wait, was discarded by a reset
or is still counted; the bit for waiters is never set beside a count, and no assertion fails before
there were as many signals as the count has room for. -/
theorem lai_event_accounts {c : Config ι Word EventPc}
    (run : (eventRuns canWait).Reach anyStep (c, h)) :
    h.waits + pending c.shared + h.discarded = h.signals ∧
      (c.shared &&& eventWaiters ≠ 0 → c.shared &&& eventCount = 0) ∧
        ∀ i why, c.thread i = .panicked why →
          why = .assertion ∧ 2 ^ 31 ≤ h.signals + 1 ∨ why = .unsupported ∧ canWait = false := by
  obtain ⟨⟨word, balance⟩, known⟩ := accounted_of_run run
  refine ⟨balance, fun waiters => ?_, fun i why panicked => ?_⟩
  · obtain alone | few := word
    · rw [alone]
      rfl
    · exact absurd ((and_waiters _).mpr few) waiters
  · have told := known i
    rw [panicked] at told
    cases why with
    | assertion => exact .inl ⟨rfl, told⟩
    | unsupported => exact .inr ⟨rfl, told⟩

def signalledOnce : Config Bool Word EventPc :=
  ((⟨0, fun _ => .outside⟩ : Config Bool Word EventPc).put true (0, .signalling 0)).put true
    (1, .outside)

theorem lai_event_accounts_of_signal :
    0 + pending signalledOnce.shared + 0 = 1 ∧
      (signalledOnce.shared &&& eventWaiters ≠ 0 → signalledOnce.shared &&& eventCount = 0) ∧
        ∀ i why, signalledOnce.thread i = .panicked why →
          why = .assertion ∧ 2 ^ 31 ≤ 1 + 1 ∨ why = .unsupported ∧ true = false := by
  have idle : (eventRuns true).Reach anyStep
      ((⟨0, fun _ => .outside⟩ : Config Bool Word EventPc), ⟨0, 0, 0⟩) :=
    .start ⟨⟨rfl, fun _ => rfl⟩, rfl⟩
  have loaded : (eventRuns true).Reach anyStep
      ((⟨0, fun _ => .outside⟩ : Config Bool Word EventPc).put true (0, .signalling 0), ⟨0, 0, 0⟩) :=
    idle.next (a := (true, .loadSignal)) trivial ⟨⟨_, rfl, rfl⟩, rfl⟩
  have signalled : (eventRuns true).Reach anyStep (signalledOnce, ⟨0, 1, 0⟩) :=
    loaded.next (a := (true, .signalTurn)) trivial ⟨⟨_, rfl, rfl⟩, rfl⟩
  exact lai_event_accounts signalled

end X86Os.Lai
