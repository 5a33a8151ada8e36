import X86Os.Library.Memory
import X86Os.Library.Threads

/-!
# The mutex of AML code

`Acquire` and `Release` end in `lai_mutex_lock` and `lai_mutex_unlock` of
lai/core/exec_impl.h. Threads run them at the same time; every atomic access is
a step. Blocking is the host's: `laihost_sync_wait` may return at any time, with
or without a timeout, and a host may come without it.
-/

namespace X86Os.Lai

open Library.Memory Library.Runs Library.Threads
set_option autoImplicit false

def mutexBits : Word := 3

def mutexLocked : Word := 1

def mutexContended : Word := 2

/-- Why a thread ended in `lai_panic`: an assertion, or a function that the host lacks. -/
inductive Panic
  | assertion
  | unsupported
  deriving DecidableEq

inductive MutexPc
  | outside
  | looping (v : Word)
  | blocking (v : Word)
  | holding
  | unlocking (v : Word)
  | panicked (why : Panic)
  deriving DecidableEq

/-- The load, a turn of the loop, the return of `laihost_sync_wait`, the exchange of an unlock and
what follows it. -/
inductive MutexAct
  | load
  | turn
  | wait (timedOut : Bool)
  | exchange
  | wake

/-- One turn of the loop of `lai_mutex_lock`, up to and including its atomic access. -/
def lockTurn (val v : Word) : Word × MutexPc :=
  if v &&& ~~~mutexBits ≠ 0 then (val, .panicked .assertion)
  else if v &&& mutexLocked = 0 then
    if val = v then (mutexLocked, .holding) else (val, .looping val)
  else if v &&& mutexContended = 0 then
    if val = v then (mutexLocked ||| mutexContended, .blocking v) else (val, .looping val)
  else (val, .blocking v)

def afterExchange (canWake : Bool) (v : Word) : MutexPc :=
  if v &&& ~~~mutexBits ≠ 0 then .panicked .assertion
  else if v &&& mutexLocked = 0 then .panicked .assertion
  else if v &&& mutexContended = 0 then .outside
  else if canWake then .outside else .panicked .unsupported

/-- The steps of a thread; only the thread that has locked the mutex unlocks it. -/
def mutexExec (canWait : Bool) : MutexAct → Word → MutexPc → Option (Word × MutexPc)
  | .load, val, .outside => some (val, .looping val)
  | .turn, val, .looping v => some (lockTurn val v)
  | .wait timedOut, val, .blocking v =>
    if canWait then some (val, if timedOut then .outside else .looping v)
    else some (val, .panicked .unsupported)
  | .exchange, val, .holding => some (0, .unlocking val)
  | .wake, val, .unlocking v => some (val, afterExchange canWait v)
  | _, _, _ => none

variable {ι : Type} [DecidableEq ι] {canWait : Bool} {val val' v : Word} {pc pc' : MutexPc}

def mutexRuns (canWait : Bool) : System (Config ι Word MutexPc) (ι × MutexAct) :=
  interleave (· = 0) .outside (mutexExec canWait)

def MutexWord (val : Word) : Prop := val = 0 ∨ val = mutexLocked ∨ val = mutexLocked ||| mutexContended

/-- The three values in `lai_mutex_lock`: free, locked, locked and contended. -/
theorem lockTurn_free : lockTurn val 0 = if val = 0 then (mutexLocked, .holding) else (val, .looping val) :=
  rfl

theorem lockTurn_locked : lockTurn val mutexLocked =
    if val = mutexLocked then (mutexLocked ||| mutexContended, .blocking mutexLocked)
    else (val, .looping val) :=
  rfl

theorem lockTurn_contended : lockTurn val (mutexLocked ||| mutexContended) =
    (val, .blocking (mutexLocked ||| mutexContended)) :=
  rfl

/-- What a thread knows: its variable is a value that the mutex had once, and an unlock that it
was locked. -/
def MutexPc.Known (canWait : Bool) : MutexPc → Prop
  | .outside | .holding => True
  | .looping v | .blocking v => MutexWord v
  | .unlocking v => MutexWord v ∧ v ≠ 0
  | .panicked why => why = .unsupported ∧ canWait = false

theorem afterExchange_known (word : MutexWord v) (locked : v ≠ 0) :
    (afterExchange canWait v).Known canWait := by
  obtain rfl | rfl | rfl := word
  · exact absurd rfl locked
  · trivial
  · cases canWait with
    | true => trivial
    | false => exact ⟨rfl, rfl⟩

/-- The outcomes of a step for the mutex: it stays as it is, becomes contended, is taken when it was
free, or is freed by the thread that holds it. -/
inductive MutexStep (canWait : Bool) : Word → MutexPc → Word → MutexPc → Prop
  | apart {val : Word} {pc pc' : MutexPc} (before : pc ≠ .holding) (after : pc' ≠ .holding)
      (known : pc'.Known canWait) : MutexStep canWait val pc val pc'
  | contend {pc pc' : MutexPc} (before : pc ≠ .holding) (after : pc' ≠ .holding)
      (known : pc'.Known canWait) :
      MutexStep canWait mutexLocked pc (mutexLocked ||| mutexContended) pc'
  | take (pc : MutexPc) : MutexStep canWait 0 pc mutexLocked .holding
  | free (val : Word) : MutexStep canWait val .holding 0 (.unlocking val)

theorem mutexStep_of_exec {a : MutexAct} {r : Word × MutexPc} (word : MutexWord val)
    (known : pc.Known canWait) (moved : mutexExec canWait a val pc = some r) :
    MutexStep canWait val pc r.1 r.2 := by
  unfold mutexExec at moved
  split at moved
  · cases moved
    exact .apart nofun nofun word
  · rename_i val v
    obtain rfl := Option.some.inj moved
    obtain rfl | rfl | rfl := known
    · rw [lockTurn_free]
      split_ifs with free
      · subst free
        exact .take _
      · exact .apart nofun nofun word
    · rw [lockTurn_locked]
      split_ifs with locked
      · subst locked
        exact .contend nofun nofun (.inr (.inl rfl))
      · exact .apart nofun nofun word
    · rw [lockTurn_contended]
      exact .apart nofun nofun (.inr (.inr rfl))
  · split_ifs at moved with able timedOut
    · cases moved
      exact .apart nofun nofun trivial
    · cases moved
      exact .apart nofun nofun known
    · cases moved
      exact .apart nofun nofun ⟨rfl, by simpa using able⟩
  · cases moved
    exact .free _
  · rename_i val v
    obtain rfl := Option.some.inj moved
    refine .apart nofun ?_ (afterExchange_known known.1 known.2)
    unfold afterExchange
    split_ifs <;> nofun
  · cases moved

structure MutexKept (canWait : Bool) (c : Config ι Word MutexPc) : Prop where
  word : MutexWord c.shared
  known : ∀ i, (c.thread i).Known canWait
  exclusive : Exclusive (· = .holding) (· = 0) (fun val _ => val ≠ 0) c

theorem known_put {c : Config ι Word MutexPc} {i : ι} {r : Word × MutexPc}
    (before : ∀ j, (c.thread j).Known canWait) (after : r.2.Known canWait) :
    ∀ j, ((c.put i r).thread j).Known canWait := by
  intro j
  obtain rfl | other := eq_or_ne j i
  · rwa [Config.put_same]
  · rw [Config.put_of_ne other]
    exact before j

theorem MutexKept.step {c : Config ι Word MutexPc} (kept : MutexKept canWait c) {i : ι}
    (shared : c.shared = val) (thread : c.thread i = pc) (step : MutexStep canWait val pc val' pc') :
    MutexKept canWait (c.put i (val', pc')) := by
  obtain ⟨word, known, exclusive⟩ := kept
  cases step with
  | apart before after known' =>
    refine ⟨by rwa [Config.put_shared, ← shared], known_put known known', ?_⟩
    exact exclusive.outside (by rwa [thread]) after (shared ▸ id) fun _ => shared ▸ id
  | contend before after known' =>
    refine ⟨.inr (.inr rfl), known_put known known', ?_⟩
    exact exclusive.outside (by rwa [thread]) after (by rw [shared]; nofun) fun _ _ => nofun
  | take =>
    refine ⟨.inr (.inl rfl), known_put known trivial, ?_⟩
    exact exclusive.acquire (fun _ taken => taken shared) rfl nofun
  | free val =>
    have locked := (exclusive.of_holds thread).2
    rw [shared] at locked word
    refine ⟨.inl rfl, known_put known ⟨word, locked⟩, ?_⟩
    exact exclusive.release thread nofun fun _ => rfl

theorem mutexKept_of_run {guard : Config ι Word MutexPc → ι × MutexAct → Prop}
    {c : Config ι Word MutexPc} (run : (mutexRuns canWait).Reach guard c) : MutexKept canWait c := by
  apply run.invariant
  · rintro c ⟨free, outside⟩
    refine ⟨.inl free, fun i => ?_, .inl ⟨fun i => ?_, free⟩⟩
    · rw [outside i]
      trivial
    · rw [outside i]
      nofun
  · rintro c ⟨i, a⟩ _ _ kept _ ⟨r, moved, rfl⟩
    exact kept.step rfl rfl (mutexStep_of_exec kept.word (kept.known i) moved)

/-- In every interleaving at most one thread holds the mutex, the mutex is locked exactly while one
does, and no assertion fails: a thread panics only where the host has no functions for blocking. -/
theorem lai_mutex_exclusion {c : Config ι Word MutexPc}
    (run : (mutexRuns canWait).Reach anyStep c) :
    (∀ i j, c.thread i = .holding → c.thread j = .holding → i = j) ∧
      (c.shared ≠ 0 ↔ ∃ i, c.thread i = .holding) ∧
        ∀ i why, c.thread i = .panicked why → why = .unsupported ∧ canWait = false := by
  obtain ⟨_, known, exclusive⟩ := mutexKept_of_run run
  refine ⟨fun i j => exclusive.unique, ⟨fun locked => ?_, ?_⟩, fun i why panicked => ?_⟩
  · by_contra nobody
    exact locked (exclusive.of_nobody fun i holding => nobody ⟨i, holding⟩)
  · rintro ⟨i, holding⟩
    exact (exclusive.of_holds holding).2
  · have told := known i
    rwa [panicked] at told

def lockedByFirst : Config Bool Word MutexPc :=
  ((⟨0, fun _ => .outside⟩ : Config Bool Word MutexPc).put true (0, .looping 0)).put true
    (mutexLocked, .holding)

theorem lai_mutex_exclusion_of_first :
    (∀ i j, lockedByFirst.thread i = .holding → lockedByFirst.thread j = .holding → i = j) ∧
      (lockedByFirst.shared ≠ 0 ↔ ∃ i, lockedByFirst.thread i = .holding) ∧
        ∀ i why, lockedByFirst.thread i = .panicked why → why = .unsupported ∧ true = false := by
  have idle : (mutexRuns true).Reach anyStep (⟨0, fun _ => .outside⟩ : Config Bool Word MutexPc) :=
    .start ⟨rfl, fun _ => rfl⟩
  have loaded : (mutexRuns true).Reach anyStep
      ((⟨0, fun _ => .outside⟩ : Config Bool Word MutexPc).put true (0, .looping 0)) :=
    idle.next (a := (true, .load)) trivial ⟨_, rfl, rfl⟩
  exact lai_mutex_exclusion (loaded.next (a := (true, .turn)) trivial ⟨_, rfl, rfl⟩)

end X86Os.Lai
