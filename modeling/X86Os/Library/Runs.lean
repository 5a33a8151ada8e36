import Mathlib.Data.Fintype.Card
import Mathlib.Logic.Relation

/-!
# Guarded runs of a labelled transition system

A system says where a run may start and which labelled steps it may take. A
guard restricts the steps of a run by a condition on the state before the step
and on the label; an invariant of the guarded runs is proved once from its base
case and its step case. History variables are added without touching the system.
-/

namespace Library.Runs
set_option autoImplicit false

variable {σ α γ : Type*}

structure System (σ α : Type*) where
  init : σ → Prop
  step : σ → α → σ → Prop

/-- No condition at all: the guard of unrestricted runs. -/
def anyStep : σ → α → Prop := fun _ _ => True

instance (s : σ) (a : α) : Decidable (anyStep s a) := .isTrue trivial

/-- States reached by the runs all of whose steps meet the guard. -/
inductive System.Reach (S : System σ α) (guard : σ → α → Prop) : σ → Prop
  | start {s : σ} (begin : S.init s) : Reach S guard s
  | next {s t : σ} {a : α} (run : Reach S guard s) (allowed : guard s a) (move : S.step s a t) :
      Reach S guard t

namespace System

variable {S : System σ α} {guard guard' : σ → α → Prop}

/-- The induction rule for invariants. The step case may use that the state
before the step is itself reached. -/
theorem Reach.invariant {I : σ → Prop} (base : ∀ s, S.init s → I s)
    (preserved : ∀ s a t, S.Reach guard s → I s → guard s a → S.step s a t → I t)
    {s : σ} (run : S.Reach guard s) : I s := by
  induction run with
  | start begin => exact base _ begin
  | next run allowed move ih => exact preserved _ _ _ run ih allowed move

/-- A guarded run is a run. -/
theorem Reach.any {s : σ} (run : S.Reach guard s) : S.Reach anyStep s :=
  run.invariant (fun _ begin => .start begin) fun _ _ _ _ ih _ move => ih.next trivial move

/-- The same steps with a history that observes every state change. -/
def tracked (S : System σ α) (initial : σ → γ) (observe : σ → α → σ → γ → γ) :
    System (σ × γ) α where
  init s := S.init s.1 ∧ s.2 = initial s.1
  step s a t := S.step s.1 a t.1 ∧ t.2 = observe s.1 a t.1 s.2

theorem Reach.trackedStart {initial : σ → γ} {observe : σ → α → σ → γ → γ}
    {guard : σ × γ → α → Prop} {s : σ} (begin : S.init s) :
    (S.tracked initial observe).Reach guard (s, initial s) :=
  .start ⟨begin, rfl⟩

theorem Reach.trackedNext {initial : σ → γ} {observe : σ → α → σ → γ → γ}
    {guard : σ × γ → α → Prop} {s t : σ} {a : α} {h : γ}
    (run : (S.tracked initial observe).Reach guard (s, h)) (allowed : guard (s, h) a)
    (move : S.step s a t) : (S.tracked initial observe).Reach guard (t, observe s a t h) :=
  .next run allowed ⟨move, rfl⟩

end System

/-- On a finite type a relation that leads from no good point back to it admits induction along
its paths from good points. -/
theorem wellFounded_of_acyclic [Finite σ] {r : σ → σ → Prop} {good : σ → Prop}
    (acyclic : ∀ a, good a → ¬Relation.TransGen r a a) :
    WellFounded fun b a => good a ∧ Relation.TransGen r a b := by
  have trans : IsTrans σ fun b a => good a ∧ Relation.TransGen r a b := by
    constructor
    rintro c b a ⟨_, later⟩ ⟨first, earlier⟩
    exact ⟨first, earlier.trans later⟩
  have irrefl : Std.Irrefl fun b a => good a ∧ Relation.TransGen r a b := by
    constructor
    rintro a ⟨holds, back⟩
    exact acyclic a holds back
  exact Finite.wellFounded_of_trans_of_irrefl _

end Library.Runs
