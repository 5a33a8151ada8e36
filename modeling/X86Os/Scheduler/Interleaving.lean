import X86Os.Library.Counter
import X86Os.Scheduler.TaskList

/-!
# Interleaved calls of `create_task`

The timer may switch to another task between any two statements, so the
statements of several calls come in any order. A call is known by the record
that it allocates. Two pairs of statements must not be torn apart: the reading of
`nextpid` and its increment, and the end of the walk and the store of the link.
-/

namespace X86Os.Scheduler

open Library.Memory Library.Runs Library.PointerList Library.Counter
set_option autoImplicit false

/-- The statement that a call has reached. -/
inductive Phase
  | allocated
  | numbered
  | counted
  | walking (idk : Word)
  | ending (idk : Word)
  | done
  deriving DecidableEq

/-- The scheduler, and the calls by their records. A task of the list belongs to a call that is
done. -/
structure Creation where
  sched : Sched
  phase : Word → Option Phase

inductive Statement
  | allocate (task base entry name : Word)
  | readPid (task : Word)
  | countPid (task : Word)
  | startWalk (task : Word)
  | walk (task : Word)
  | link (task : Word)

def Statement.task : Statement → Word
  | .allocate task .. | .readPid task | .countPid task | .startWalk task | .walk task | .link task =>
    task

namespace Creation

def enter (c : Creation) (task : Word) (phase : Phase) (sched : Sched) : Creation :=
  ⟨sched, Function.update c.phase task (some phase)⟩

/-- A statement that is not the next one of its call cannot be executed. -/
def exec (c : Creation) : Statement → Option Creation
  | .allocate task base entry name =>
    if task ≠ 0 ∧ c.phase task = none then
      some (c.enter task .allocated
        (c.sched.modify task fun t => fillTask base entry name t.pid t))
    else none
  | .readPid task =>
    if c.phase task = some .allocated then
      some (c.enter task .numbered (c.sched.modify task fun t => { t with pid := c.sched.nextpid }))
    else none
  | .countPid task =>
    if c.phase task = some .numbered then
      some (c.enter task .counted { c.sched with nextpid := c.sched.nextpid + 1 })
    else none
  | .startWalk task =>
    if c.phase task = some .counted then
      some (c.enter task (.walking c.sched.rootTask) c.sched)
    else none
  | .walk task =>
    match c.phase task with
    | some (.walking idk) =>
      let next := (c.sched.tasks idk).next
      some (c.enter task (if next = 0 then .ending idk else .walking next) c.sched)
    | _ => none
  | .link task =>
    match c.phase task with
    | some (.ending idk) =>
      some (c.enter task .done (c.sched.modify idk fun t => { t with next := task }))
    | _ => none

end Creation

/-- Behind `sched_init` only the idle task is there. -/
def creation : System Creation Statement where
  init c := ∃ records timerTick task base idle name, task ≠ 0 ∧
    c = ⟨schedInit task base idle name ⟨records, 0, 0, 0, timerTick⟩,
      Function.update (fun _ => none) task (some .done)⟩
  step c a c' := c.exec a = some c'

/-- No other call stands between the statements that belong together. -/
def Undisturbed (c : Creation) : Statement → Prop
  | .readPid _ => ∀ u, c.phase u ≠ some .numbered
  | .walk task => ∀ idk, c.phase task = some (.walking idk) → (c.sched.tasks idk).next = 0 →
    ∀ u p, c.phase u ≠ some (.ending p)
  | _ => True

def Finished (c : Creation) : Prop := ∀ t p, c.phase t = some p → p = .done

def NoneLost (c : Creation) : Prop :=
  ∃ l, Linked c.sched l ∧ (∀ t, c.phase t ≠ none → t ∈ l) ∧
    (l.map fun t => (c.sched.tasks t).pid).Nodup

variable {c c' : Creation} {s s' : Sched} {l named : List Word} {p q : Phase}
variable {fuel : Nat} {t u idk task base entry name : Word}

theorem start_phase (here : Function.update (fun _ => none) task (some Phase.done) t = some p) :
    t = task ∧ p = .done := by
  obtain rfl | other := eq_or_ne t task
  · simpa using here.symm
  · simp [other] at here

@[simp] theorem enter_sched : (c.enter task p s).sched = s := rfl

@[simp] theorem enter_same : (c.enter task p s).phase task = some p := Function.update_self ..

theorem enter_other (other : t ≠ task) : (c.enter task p s).phase t = c.phase t :=
  Function.update_of_ne other ..

theorem enter_enter {s' : Sched} : (c.enter task p s).enter task q s' = c.enter task q s' := by
  rw [Creation.enter, Creation.enter, Function.update_idem]
  rfl

theorem enter_phase (here : (c.enter task p s).phase t = some q) :
    t = task ∧ q = p ∨ t ≠ task ∧ c.phase t = some q := by
  obtain rfl | other := eq_or_ne t task
  · rw [enter_same] at here
    exact .inl ⟨rfl, (Option.some.inj here).symm⟩
  · rw [enter_other other] at here
    exact .inr ⟨other, here⟩

theorem enter_elsewhere (here : (c.enter task p s).phase t = some q) (other : q ≠ p) :
    t ≠ task ∧ c.phase t = some q := by
  obtain ⟨_, same⟩ | old := enter_phase here
  · exact absurd same other
  · exact old

theorem enter_notNull (notNull : ∀ t p, c.phase t = some p → t ≠ 0) (own : task ≠ 0) :
    ∀ t r, (c.enter task p s).phase t = some r → t ≠ 0 := by
  intro t r here
  obtain ⟨rfl, _⟩ | ⟨_, before⟩ := enter_phase here
  · exact own
  · exact notNull t r before

/-! ## The list -/

/-- The tasks whose calls are done form the list; an unfinished walk stands on it. -/
structure Listing (c : Creation) (l : List Word) : Prop extends Linked c.sched l where
  root_listed : c.sched.rootTask ∈ l
  listed : ∀ t, t ∈ l ↔ c.phase t = some .done
  loose : ∀ t p, c.phase t = some p → p ≠ .done → t ≠ 0 ∧ (c.sched.tasks t).next = 0
  walking : ∀ t p, c.phase t = some (.walking p) → p ∈ l
  ending : ∀ t p, c.phase t = some (.ending p) → p ∈ l ∧ (c.sched.tasks p).next = 0
  alone : ∀ t u p q, c.phase t = some (.ending p) → c.phase u = some (.ending q) → t = u

namespace Listing

theorem not_listed (listing : Listing c l) (here : c.phase t = some p) (notDone : p ≠ .done) :
    t ∉ l := by
  intro mem
  rw [(listing.listed t).mp mem] at here
  exact notDone (Option.some.inj here).symm

/-- A call goes on, but not to its end. -/
theorem move (listing : Listing c l) (here : c.phase task = some p) (notDone : p ≠ .done)
    (root : s.rootTask = c.sched.rootTask) (links : ∀ t, (s.tasks t).next = (c.sched.tasks t).next)
    (notYet : q ≠ .done) (walking : ∀ r, q = .walking r → r ∈ l)
    (ending : ∀ r, q = .ending r → r ∈ l ∧ (c.sched.tasks r).next = 0 ∧
      ∀ u r, c.phase u ≠ some (.ending r)) : Listing (c.enter task q s) l where
  toLinked := listing.toLinked.congr root fun t _ => links t
  root_listed := by
    rw [enter_sched, root]
    exact listing.root_listed
  listed t := by
    obtain rfl | other := eq_or_ne t task
    · rw [enter_same]
      exact iff_of_false (listing.not_listed here notDone) fun eq => notYet (Option.some.inj eq)
    · rw [enter_other other]
      exact listing.listed t
  loose t r at_t other := by
    rw [enter_sched, links]
    obtain ⟨rfl, _⟩ | ⟨_, before⟩ := enter_phase at_t
    · exact listing.loose t p here notDone
    · exact listing.loose t r before other
  walking t r at_t := by
    obtain ⟨_, eq⟩ | ⟨_, before⟩ := enter_phase at_t
    · exact walking r eq.symm
    · exact listing.walking t r before
  ending t r at_t := by
    rw [enter_sched, links]
    obtain ⟨_, eq⟩ | ⟨_, before⟩ := enter_phase at_t
    · exact ⟨(ending r eq.symm).1, (ending r eq.symm).2.1⟩
    · exact listing.ending t r before
  alone t u r r' at_t at_u := by
    obtain ⟨rfl, eq⟩ | ⟨_, before⟩ := enter_phase at_t
    · obtain ⟨rfl, _⟩ | ⟨_, before'⟩ := enter_phase at_u
      · rfl
      · exact absurd before' ((ending r eq.symm).2.2 u r')
    · obtain ⟨_, eq⟩ | ⟨_, before'⟩ := enter_phase at_u
      · exact absurd before ((ending r' eq.symm).2.2 t r)
      · exact listing.alone t u r r' before before'

theorem start (notNull : task ≠ 0) : Listing ⟨schedInit task base entry name s,
    Function.update (fun _ => none) task (some .done)⟩ [task] := by
  constructor
  case toLinked => exact (Intact.init (h := .empty) (by simp [History.empty]) notNull).toLinked
  case root_listed => exact List.mem_singleton_self _
  case listed =>
    intro t
    obtain rfl | other := eq_or_ne t task
    · simp
    · simp [other]
  case loose => exact fun t p here other => absurd (start_phase here).2 other
  case walking => exact fun t p here => absurd (start_phase here).2 (by simp)
  case ending => exact fun t p here => absurd (start_phase here).2 (by simp)
  case alone => exact fun t u p q here => absurd (start_phase here).2 (by simp)

theorem allocate (listing : Listing c l) (notNull : task ≠ 0) (fresh : c.phase task = none)
    (f : TaskStruct → TaskStruct) (last : ∀ x, (f x).next = 0) :
    Listing (c.enter task .allocated (c.sched.modify task f)) l := by
  have off : task ∉ l := by
    intro mem
    rw [(listing.listed task).mp mem] at fresh
    cases fresh
  have same : ∀ t ∈ l, (c.sched.modify task f).tasks t = c.sched.tasks t := by
    intro t ht
    exact modify_other f fun eq => off (eq ▸ ht)
  constructor
  case toLinked =>
    refine listing.toLinked.congr rfl fun t ht => ?_
    exact congrArg TaskStruct.next (same t ht)
  case root_listed => exact listing.root_listed
  case listed =>
    intro t
    obtain rfl | other := eq_or_ne t task
    · rw [enter_same]
      exact iff_of_false off nofun
    · rw [enter_other other]
      exact listing.listed t
  case loose =>
    intro t p here notDone
    rw [enter_sched]
    obtain ⟨rfl, _⟩ | ⟨other, before⟩ := enter_phase here
    · rw [modify_same]
      exact ⟨notNull, last _⟩
    · rw [modify_other f other]
      exact listing.loose t p before notDone
  case walking =>
    intro t p here
    obtain ⟨_, before⟩ := enter_elsewhere here nofun
    exact listing.walking t p before
  case ending =>
    intro t p here
    obtain ⟨_, before⟩ := enter_elsewhere here nofun
    have mem := (listing.ending t p before).1
    rw [enter_sched, same p mem]
    exact listing.ending t p before
  case alone =>
    intro t u p q here here'
    obtain ⟨_, before⟩ := enter_elsewhere here nofun
    obtain ⟨_, before'⟩ := enter_elsewhere here' nofun
    exact listing.alone t u p q before before'

/-- The store of the link appends the task: its walk has ended at the last one. -/
theorem link (listing : Listing c l) (here : c.phase task = some (.ending idk)) :
    Listing (c.enter task .done (c.sched.modify idk fun t => { t with next := task }))
      (l ++ [task]) := by
  obtain ⟨mem, last⟩ := listing.ending task idk here
  obtain ⟨notNull, own⟩ := listing.loose task _ here nofun
  have off := listing.not_listed here nofun
  obtain ⟨l₁, rfl⟩ := listing.list.last_of_next mem last
  have others : ∀ t, t ≠ idk →
      (c.sched.modify idk fun t => { t with next := task }).tasks t = c.sched.tasks t :=
    fun t other => modify_other _ other
  have away : task ≠ idk := fun eq => off (eq ▸ mem)
  have once : (l₁ ++ [idk] ++ [task]).Nodup := by
    refine List.nodup_append.mpr ⟨listing.once, List.nodup_singleton _, ?_⟩
    intro t ht u hu eq
    exact off (List.mem_singleton.mp hu ▸ eq ▸ ht)
  have notEnding : ∀ t r, t ≠ task → c.phase t ≠ some (.ending r) :=
    fun t r other at_t => other (listing.alone t task r idk at_t here)
  constructor
  case toLinked =>
    refine ⟨listing.list.snoc notNull ?_ ?_ ?_, once⟩
    · intro b hb
      have other : b ≠ idk := by
        intro eq
        exact List.disjoint_of_nodup_append listing.once (eq ▸ hb) List.mem_cons_self
      exact congrArg TaskStruct.next (others b other)
    · rw [enter_sched, modify_same]
    · exact (congrArg TaskStruct.next (others task away)).trans own
  case root_listed => exact List.mem_append_left _ listing.root_listed
  case listed =>
    intro t
    rw [List.mem_append, List.mem_singleton]
    obtain rfl | other := eq_or_ne t task
    · rw [enter_same]
      exact iff_of_true (.inr rfl) rfl
    · rw [enter_other other, ← listing.listed t]
      simp [other]
  case loose =>
    intro t r at_t notDone
    obtain ⟨_, before⟩ := enter_elsewhere at_t notDone
    have tOff : t ≠ idk := fun eq => listing.not_listed before notDone (eq ▸ mem)
    obtain ⟨notNull, own⟩ := listing.loose t r before notDone
    exact ⟨notNull, (congrArg TaskStruct.next (others t tOff)).trans own⟩
  case walking =>
    intro t r at_t
    obtain ⟨_, before⟩ := enter_elsewhere at_t nofun
    exact List.mem_append_left _ (listing.walking t r before)
  case ending =>
    intro t r at_t
    obtain ⟨other, before⟩ := enter_elsewhere at_t nofun
    exact absurd before (notEnding t r other)
  case alone =>
    intro t u r r' at_t at_u
    obtain ⟨other, before⟩ := enter_elsewhere at_t nofun
    exact absurd before (notEnding t r other)

end Listing

/-! ## The numbers -/

def Phase.Named : Phase → Prop
  | .allocated | .numbered => False
  | _ => True

/-- The counted numbers are the ones below `nextpid`, and one more task at most has a number. -/
structure Numbering (c : Creation) (named : List Word) : Prop where
  issued : Issued c.sched.nextpid (named.map fun t => (c.sched.tasks t).pid)
  count : c.sched.nextpid.toNat = named.length
  named : ∀ t, t ∈ named ↔ ∃ p, c.phase t = some p ∧ p.Named
  notNull : ∀ t p, c.phase t = some p → t ≠ 0
  numbered : ∀ t, c.phase t = some .numbered → (c.sched.tasks t).pid = c.sched.nextpid
  alone : ∀ t u, c.phase t = some .numbered → c.phase u = some .numbered → t = u

namespace Numbering

theorem once (numbering : Numbering c named) : named.Nodup := numbering.issued.once.of_map

/-- There are fewer numbers than records, so the counter does not wrap. -/
theorem room (numbering : Numbering c named) (here : c.phase task = some .numbered) :
    c.sched.nextpid.toNat + 1 < 2 ^ 32 := by
  have off : task ∉ named := by
    intro mem
    obtain ⟨p, here', isNamed⟩ := (numbering.named task).mp mem
    cases here.symm.trans here'
    exact isNamed
  have null : (0 : Word) ∉ task :: named := by
    intro mem
    obtain eq | mem := List.mem_cons.mp mem
    · exact numbering.notNull task _ here eq.symm
    · obtain ⟨p, here', _⟩ := (numbering.named 0).mp mem
      exact numbering.notNull 0 p here' rfl
  have most := length_le (List.nodup_cons.mpr ⟨null, List.nodup_cons.mpr ⟨off, numbering.once⟩⟩)
  simp only [List.length_cons] at most
  rw [numbering.count]
  omega

theorem start (notNull : task ≠ 0) (first : s.nextpid = 0) :
    Numbering ⟨schedInit task base entry name s,
      Function.update (fun _ => none) task (some .done)⟩ [task] := by
  constructor
  case issued =>
    refine ⟨List.nodup_singleton _, ?_⟩
    simp [schedInit, first]
  case count => simp [schedInit, first]
  case named =>
    intro t
    obtain rfl | other := eq_or_ne t task
    · simp [Phase.Named]
    · simp [other]
  case notNull =>
    rintro t p here
    exact (start_phase here).1 ▸ notNull
  case numbered => exact fun t here => absurd (start_phase here).2 (by simp)
  case alone => exact fun t u here => absurd (start_phase here).2 (by simp)

/-- A call that has its number goes on. -/
theorem move (numbering : Numbering c named) (here : c.phase task = some p) (isNamed : p.Named)
    (stays : q.Named) (nextpid : s.nextpid = c.sched.nextpid)
    (pids : ∀ t, (s.tasks t).pid = (c.sched.tasks t).pid) : Numbering (c.enter task q s) named := by
  have notNumbered : q ≠ .numbered := by
    rintro rfl
    exact stays
  have before : ∀ t, (c.enter task q s).phase t = some .numbered → c.phase t = some .numbered := by
    intro t at_t
    exact (enter_elsewhere at_t notNumbered.symm).2
  constructor
  case issued =>
    simp only [enter_sched, nextpid, pids]
    exact numbering.issued
  case count =>
    rw [enter_sched, nextpid]
    exact numbering.count
  case named =>
    intro t
    rw [numbering.named]
    obtain rfl | other := eq_or_ne t task
    · rw [enter_same]
      exact iff_of_true ⟨p, here, isNamed⟩ ⟨q, rfl, stays⟩
    · rw [enter_other other]
  case notNull => exact enter_notNull numbering.notNull (numbering.notNull task p here)
  case numbered =>
    intro t at_t
    rw [enter_sched, pids, nextpid]
    exact numbering.numbered t (before t at_t)
  case alone => exact fun t u at_t at_u => numbering.alone t u (before t at_t) (before u at_u)

/-- A call without a counted number writes to its record. -/
theorem write (numbering : Numbering c named) (notNull : task ≠ 0)
    (unnamed : ∀ p, c.phase task = some p → ¬ p.Named) (notYet : ¬ q.Named)
    (f : TaskStruct → TaskStruct)
    (number : q = .numbered → (f (c.sched.tasks task)).pid = c.sched.nextpid ∧
      ∀ u, c.phase u ≠ some .numbered) :
    Numbering (c.enter task q (c.sched.modify task f)) named := by
  have off : task ∉ named := by
    intro mem
    obtain ⟨p, here, isNamed⟩ := (numbering.named task).mp mem
    exact unnamed p here isNamed
  have same : ∀ t ∈ named, ((c.sched.modify task f).tasks t).pid = (c.sched.tasks t).pid := by
    intro t ht
    have other : t ≠ task := by
      rintro rfl
      exact off ht
    rw [modify_other f other]
  constructor
  case issued =>
    show Issued c.sched.nextpid (named.map fun t => ((c.sched.modify task f).tasks t).pid)
    rw [List.map_congr_left same]
    exact numbering.issued
  case count => exact numbering.count
  case named =>
    intro t
    rw [numbering.named]
    obtain rfl | other := eq_or_ne t task
    · rw [enter_same]
      refine iff_of_false (fun ⟨p, here, isNamed⟩ => unnamed p here isNamed) ?_
      rintro ⟨p, ⟨⟩, isNamed⟩
      exact notYet isNamed
    · rw [enter_other other]
  case notNull => exact enter_notNull numbering.notNull notNull
  case numbered =>
    intro t at_t
    rw [enter_sched]
    obtain ⟨rfl, eq⟩ | ⟨other, before⟩ := enter_phase at_t
    · rw [modify_same]
      exact (number eq.symm).1
    · rw [modify_other f other]
      exact numbering.numbered t before
  case alone =>
    intro t u at_t at_u
    obtain ⟨rfl, eq⟩ | ⟨_, before⟩ := enter_phase at_t
    · obtain ⟨rfl, _⟩ | ⟨_, before⟩ := enter_phase at_u
      · rfl
      · exact absurd before ((number eq.symm).2 u)
    · obtain ⟨_, eq⟩ | ⟨_, before'⟩ := enter_phase at_u
      · exact absurd before ((number eq.symm).2 t)
      · exact numbering.alone t u before before'

theorem countPid (numbering : Numbering c named) (here : c.phase task = some .numbered) :
    Numbering (c.enter task .counted { c.sched with nextpid := c.sched.nextpid + 1 })
      (task :: named) := by
  have room := numbering.room here
  have nobody : ∀ t, t ≠ task → c.phase t ≠ some .numbered :=
    fun t other at_t => other (numbering.alone t task at_t here)
  constructor
  case issued =>
    show Issued (c.sched.nextpid + 1) ((task :: named).map fun t => (c.sched.tasks t).pid)
    rw [List.map_cons, numbering.numbered task here]
    exact numbering.issued.next room
  case count =>
    show (c.sched.nextpid + 1).toNat = _
    rw [Issued.toNat_next room, numbering.count, List.length_cons]
  case named =>
    intro t
    rw [List.mem_cons, numbering.named]
    obtain rfl | other := eq_or_ne t task
    · rw [enter_same]
      exact iff_of_true (.inl rfl) ⟨_, rfl, trivial⟩
    · rw [enter_other other]
      simp [other]
  case notNull => exact enter_notNull numbering.notNull (numbering.notNull task _ here)
  case numbered =>
    intro t at_t
    obtain ⟨other, before⟩ := enter_elsewhere at_t nofun
    exact absurd before (nobody t other)
  case alone =>
    intro t u at_t
    obtain ⟨other, before⟩ := enter_elsewhere at_t nofun
    exact absurd before (nobody t other)

end Numbering

/-! ## Runs -/

structure Orderly (c : Creation) : Prop where
  listing : ∃ l, Listing c l
  numbering : ∃ named, Numbering c named

theorem step_orderly {a : Statement} (orderly : Orderly c) (undisturbed : Undisturbed c a)
    (move : c.exec a = some c') : Orderly c' := by
  obtain ⟨⟨l, listing⟩, ⟨named, numbering⟩⟩ := orderly
  cases a with
  | allocate task base entry name =>
    rw [Creation.exec, Option.ite_none_right_eq_some] at move
    obtain ⟨⟨notNull, fresh⟩, ⟨⟩⟩ := move
    refine ⟨⟨l, listing.allocate notNull fresh _ fun _ => rfl⟩, ⟨named, ?_⟩⟩
    refine numbering.write (q := .allocated) notNull ?_ not_false _ nofun
    rw [fresh]
    nofun
  | readPid task =>
    rw [Creation.exec, Option.ite_none_right_eq_some] at move
    obtain ⟨here, ⟨⟩⟩ := move
    refine ⟨⟨l, listing.move here nofun rfl ?_ nofun nofun nofun⟩, ⟨named, ?_⟩⟩
    · exact fun t => modify_next fun _ => rfl
    · refine numbering.write (q := .numbered) (numbering.notNull task _ here) ?_ not_false _
        fun _ => ⟨rfl, undisturbed⟩
      rw [here]
      rintro p ⟨⟩
      exact not_false
  | countPid task =>
    rw [Creation.exec, Option.ite_none_right_eq_some] at move
    obtain ⟨here, ⟨⟩⟩ := move
    exact ⟨⟨l, listing.move here nofun rfl (fun _ => rfl) nofun nofun nofun⟩,
      ⟨_, numbering.countPid here⟩⟩
  | startWalk task =>
    rw [Creation.exec, Option.ite_none_right_eq_some] at move
    obtain ⟨here, ⟨⟩⟩ := move
    refine ⟨⟨l, listing.move here nofun rfl (fun _ => rfl) nofun ?_ nofun⟩,
      ⟨named, numbering.move here trivial trivial rfl fun _ => rfl⟩⟩
    rintro r ⟨⟩
    exact listing.root_listed
  | walk task =>
    rw [Creation.exec] at move
    split at move
    next idk here =>
      cases move
      have mem := listing.walking task idk here
      split
      next last =>
        refine ⟨⟨l, listing.move here nofun rfl (fun _ => rfl) nofun nofun ?_⟩,
          ⟨named, numbering.move here trivial trivial rfl fun _ => rfl⟩⟩
        rintro r ⟨⟩
        exact ⟨mem, last, undisturbed idk here last⟩
      next more =>
        refine ⟨⟨l, listing.move here nofun rfl (fun _ => rfl) nofun ?_ nofun⟩,
          ⟨named, numbering.move here trivial trivial rfl fun _ => rfl⟩⟩
        rintro r ⟨⟩
        exact (listing.list.next_mem mem).resolve_left more
    next => cases move
  | link task =>
    rw [Creation.exec] at move
    split at move
    next idk here =>
      cases move
      refine ⟨⟨_, listing.link here⟩, ⟨named, numbering.move here trivial trivial rfl ?_⟩⟩
      exact fun t => modify_keeps TaskStruct.pid fun _ => rfl
    next => cases move

theorem reach_orderly (run : creation.Reach Undisturbed c) : Orderly c := by
  refine run.invariant ?_ ?_
  · rintro _ ⟨records, timerTick, task, base, idle, name, notNull, rfl⟩
    exact ⟨⟨_, .start notNull⟩, ⟨_, .start notNull rfl⟩⟩
  · intro c a c' _ orderly undisturbed move
    exact step_orderly orderly undisturbed move

theorem Orderly.noneLost (orderly : Orderly c) (finished : Finished c) : NoneLost c := by
  obtain ⟨⟨l, listing⟩, ⟨named, numbering⟩⟩ := orderly
  have done : ∀ t, c.phase t ≠ none → c.phase t = some .done := by
    intro t started
    obtain ⟨p, here⟩ := Option.ne_none_iff_exists'.mp started
    exact here.trans (congrArg some (finished t p here))
  refine ⟨l, listing.toLinked, fun t started => (listing.listed t).mpr (done t started), ?_⟩
  refine listing.once.map_on fun t ht u hu same => ?_
  have inNamed : ∀ t ∈ l, t ∈ named :=
    fun t ht => (numbering.named t).mpr ⟨.done, (listing.listed t).mp ht, trivial⟩
  exact List.inj_on_of_nodup_map numbering.issued.once (inNamed t ht) (inNamed u hu) same

/-- When the calls do not disturb each other, no task is lost and no pid is given out twice. -/
theorem none_lost (run : creation.Reach Undisturbed c) (finished : Finished c) : NoneLost c :=
  (reach_orderly run).noneLost finished

/-! ## Calls in turn -/

theorem reach_walk (run : creation.Reach Undisturbed c) (here : c.phase task = some (.walking idk))
    (others : ∀ u p, c.phase u ≠ some (.ending p))
    (walked : tailTask c.sched.tasks fuel idk = .ok t) :
    creation.Reach Undisturbed (c.enter task (.ending t) c.sched) := by
  induction fuel generalizing c idk with
  | zero => cases walked
  | succ fuel ih =>
    rw [tailTask] at walked
    have step : c.exec (.walk task) = some (c.enter task (if (c.sched.tasks idk).next = 0 then
        .ending idk else .walking (c.sched.tasks idk).next) c.sched) := by
      rw [Creation.exec, here]
    split at walked
    next last =>
      cases walked
      rw [if_pos last] at step
      exact run.next (a := Statement.walk task) (fun _ _ _ => others) step
    next more =>
      rw [if_neg more] at step
      have later := run.next (a := Statement.walk task) (fun _ _ _ => others) step
      have reached := ih later enter_same ?_ walked
      · rwa [enter_enter] at reached
      · intro u p at_u
        obtain ⟨_, before⟩ := enter_elsewhere at_u (by simp)
        exact others u p before

theorem exec_link (here : c.phase task = some (.ending idk)) : c.exec (.link task) =
    some (c.enter task .done (c.sched.modify idk fun t => { t with next := task })) := by
  rw [Creation.exec, here]

/-- Calls that follow one another do not disturb each other, and do what `createTask` does. -/
theorem reach_createTask (run : creation.Reach Undisturbed c) (finished : Finished c)
    (notNull : task ≠ 0) (fresh : c.phase task = none)
    (created : createTask fuel task base entry name c.sched = .ok s') :
    creation.Reach Undisturbed (c.enter task .done s') := by
  obtain ⟨last, walked, rest⟩ := bind_ok created
  cases rest
  have filled := run.next (a := Statement.allocate task base entry name) trivial (if_pos ⟨notNull, fresh⟩)
  have numbered := filled.next (a := Statement.readPid task) ?_ (if_pos enter_same)
  · have counted := numbered.next (a := Statement.countPid task) trivial (if_pos enter_same)
    have walking := counted.next (a := Statement.startWalk task) trivial (if_pos enter_same)
    simp only [enter_enter] at walking
    have records : ((c.sched.modify task fun t => fillTask base entry name t.pid t).modify task
        fun t => { t with pid := c.sched.nextpid }) =
          c.sched.modify task (fillTask base entry name c.sched.nextpid) := modify_modify ..
    have ending := reach_walk walking enter_same ?_ (records ▸ walked)
    · have linked := ending.next (a := Statement.link task) trivial (exec_link enter_same)
      simp only [enter_enter] at linked
      exact records ▸ linked
    · intro u p at_u
      obtain ⟨_, before⟩ := enter_elsewhere at_u nofun
      cases finished u _ before
  · intro u at_u
    obtain ⟨_, before⟩ := enter_elsewhere at_u nofun
    cases finished u _ before

def bootedCreation : Creation := ⟨booted.1, Function.update (fun _ => none) 0x1000 (some .done)⟩

theorem bootedCreation_reach {guard : Creation → Statement → Prop} :
    creation.Reach guard bootedCreation :=
  .start ⟨_, _, _, _, _, _, by decide, rfl⟩

theorem bootedCreation_finished : Finished bootedCreation := by
  intro t p here
  exact (start_phase here).2

def undisturbedAmong (calls : List Word) (c : Creation) : Statement → Bool
  | .readPid _ => calls.all fun u => c.phase u != some .numbered
  | .walk _ => calls.all fun u => !(c.phase u matches some (.ending _))
  | _ => true

/-- Statements of these calls, as long as none is disturbed. -/
def execAmong (calls : List Word) : List Statement → Creation → Option Creation
  | [], c => some c
  | a :: as, c =>
    if a.task ∈ calls ∧ undisturbedAmong calls c a then (c.exec a).bind (execAmong calls as) else none

theorem exec_other {a : Statement} (run : c.exec a = some c') (other : t ≠ a.task) :
    c'.phase t = c.phase t := by
  cases a
  all_goals
    rw [Creation.exec] at run
    split at run
    · cases run
      exact enter_other other
    · cases run

theorem execAll_other {as : List Statement} (run : as.foldlM Creation.exec c = some c')
    (others : ∀ a ∈ as, t ≠ a.task) : c'.phase t = c.phase t := by
  induction as generalizing c with
  | nil =>
    cases run
    rfl
  | cons a as ih =>
    obtain ⟨here, rest⟩ := List.forall_mem_cons.mp others
    rw [List.foldlM_cons] at run
    obtain ⟨c₁, first, later⟩ := Option.bind_eq_some_iff.mp run
    rw [ih later rest, exec_other first here]

theorem execAll_reach {as : List Statement} (start : creation.Reach anyStep c)
    (run : as.foldlM Creation.exec c = some c') : creation.Reach anyStep c' := by
  induction as generalizing c with
  | nil =>
    cases run
    exact start
  | cons a as ih =>
    rw [List.foldlM_cons] at run
    obtain ⟨c₁, first, later⟩ := Option.bind_eq_some_iff.mp run
    exact ih (start.next trivial first) later

/-- A list that contains every call under way decides for all. -/
theorem undisturbed_of_among {calls : List Word} {a : Statement}
    (elsewhere : ∀ u ∉ calls, ∀ p, c.phase u = some p → p = .done)
    (among : undisturbedAmong calls c a) : Undisturbed c a := by
  cases a with
  | readPid task =>
    intro u at_u
    obtain here | out := em (u ∈ calls)
    · have apart := List.all_eq_true.mp among u here
      simp [at_u] at apart
    · cases elsewhere u out _ at_u
  | walk task =>
    intro idk _ _ u p at_u
    obtain here | out := em (u ∈ calls)
    · have apart := List.all_eq_true.mp among u here
      simp [at_u] at apart
    · cases elsewhere u out _ at_u
  | allocate | countPid | startWalk | link => trivial

theorem execAmong_reach {calls : List Word} {as : List Statement}
    (start : creation.Reach Undisturbed c)
    (elsewhere : ∀ u ∉ calls, ∀ p, c.phase u = some p → p = .done)
    (run : execAmong calls as c = some c') :
    creation.Reach Undisturbed c' ∧ ∀ u ∉ calls, ∀ p, c'.phase u = some p → p = .done := by
  induction as generalizing c with
  | nil =>
    cases run
    exact ⟨start, elsewhere⟩
  | cons a as ih =>
    rw [execAmong] at run
    split_ifs at run with allowed
    obtain ⟨c₁, first, later⟩ := Option.bind_eq_some_iff.mp run
    refine ih (start.next (undisturbed_of_among elsewhere allowed.2) first) ?_ later
    intro u out p at_u
    have other : u ≠ a.task := by
      rintro rfl
      exact out allowed.1
    exact elsewhere u out p (exec_other first other ▸ at_u)

/-- Two calls in turns: each reads and counts the pid in one go, and links behind the end it found. -/
def interleavedCalls : List Statement :=
  [.allocate 0x7000 0x8000 0x300 0x400, .readPid 0x7000, .allocate 0xD000 0xE000 0x300 0x400,
    .countPid 0x7000, .readPid 0xD000, .startWalk 0x7000, .countPid 0xD000, .walk 0x7000,
    .startWalk 0xD000, .link 0x7000, .walk 0xD000, .walk 0xD000, .link 0xD000]

theorem none_lost_interleaved : ∃ c, creation.Reach Undisturbed c ∧ c.phase 0x7000 = some .done ∧
    c.phase 0xD000 = some .done ∧ NoneLost c := by
  obtain ⟨c, run⟩ : ∃ c, execAmong [0x7000, 0xD000] interleavedCalls bootedCreation = some c :=
    ⟨_, rfl⟩
  have ends : c.phase 0x7000 = some .done ∧ c.phase 0xD000 = some .done := by
    cases run
    decide
  obtain ⟨reached, elsewhere⟩ := execAmong_reach bootedCreation_reach
    (fun u _ p here => bootedCreation_finished u p here) run
  refine ⟨c, reached, ends.1, ends.2, none_lost reached fun t p here => ?_⟩
  obtain among | out := em (t ∈ [(0x7000 : Word), 0xD000])
  · obtain rfl | rfl : t = 0x7000 ∨ t = 0xD000 := by simpa using among
    · exact Option.some.inj (here.symm.trans ends.1)
    · exact Option.some.inj (here.symm.trans ends.2)
  · exact elsewhere t out p here

/-- The second call reads `nextpid` and finds the end of the list before the first one has
changed them. -/
def tornCalls : List Statement :=
  [.allocate 0x7000 0x8000 0x300 0x400, .readPid 0x7000, .allocate 0xD000 0xE000 0x300 0x400,
    .readPid 0xD000, .countPid 0x7000, .countPid 0xD000, .startWalk 0x7000, .startWalk 0xD000,
    .walk 0x7000, .walk 0xD000, .link 0x7000, .link 0xD000]

/-- The first task is lost, and both have the pid 1. -/
theorem task_lost : ∃ c, creation.Reach anyStep c ∧ Finished c ∧ ¬ NoneLost c ∧
    (c.sched.tasks 0x7000).pid = (c.sched.tasks 0xD000).pid := by
  obtain ⟨c, run⟩ : ∃ c, tornCalls.foldlM Creation.exec bootedCreation = some c := ⟨_, rfl⟩
  have ends : c.phase 0x7000 = some .done ∧ c.phase 0xD000 = some .done ∧
      c.sched.rootTask = 0x1000 ∧ (c.sched.tasks 0x1000).next = 0xD000 ∧
      (c.sched.tasks 0xD000).next = 0 ∧
      (c.sched.tasks 0x7000).pid = (c.sched.tasks 0xD000).pid := by
    cases run
    decide
  obtain ⟨first, second, root, next, last, pids⟩ := ends
  refine ⟨c, execAll_reach bootedCreation_reach run, ?_, ?_, pids⟩
  · intro t p here
    obtain rfl | other := eq_or_ne t 0x7000
    · exact Option.some.inj (here.symm.trans first)
    obtain rfl | other' := eq_or_ne t 0xD000
    · exact Option.some.inj (here.symm.trans second)
    · have two : ∀ a ∈ tornCalls, a.task = 0x7000 ∨ a.task = 0xD000 := by decide
      rw [execAll_other run] at here
      · exact bootedCreation_finished t p here
      · rintro a ha rfl
        exact (two a ha).elim other other'
  · rintro ⟨l, linked, listed, _⟩
    have short : Chain (fun t => (c.sched.tasks t).next) 0 c.sched.rootTask [0x1000, 0xD000] := by
      rw [root]
      refine Chain.cons_iff.mpr ⟨rfl, by decide, ?_⟩
      rw [next]
      refine Chain.cons_iff.mpr ⟨rfl, by decide, ?_⟩
      exact Chain.nil_iff.mpr last
    have mem := listed 0x7000 (by rw [first]; nofun)
    rw [linked.list.unique short] at mem
    exact absurd mem (by decide)

end X86Os.Scheduler
