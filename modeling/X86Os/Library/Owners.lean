import Mathlib.Data.List.Forall2
import Mathlib.Data.List.Nodup

/-!
# Lists whose members each have an owner of their own

A claim and its owner are related by `R`. What matters is that no two members of
the list share an owner: members are then pairwise apart as soon as distinct
owners keep their claims apart.
-/

namespace Library.Owners
set_option autoImplicit false

variable {α β : Type*} {R S : α → β → Prop} {l l₁ l₂ : List α} {a : α}

def EachOwned (R : α → β → Prop) (l : List α) : Prop :=
  ∃ owners : List β, List.Forall₂ R l owners ∧ owners.Nodup

theorem exists_mem_right {owners : List β} (owned : List.Forall₂ R l owners) (ha : a ∈ l) :
    ∃ x ∈ owners, R a x := by
  induction owned with
  | nil => cases ha
  | @cons b y l owners head tail ih =>
    rcases List.mem_cons.mp ha with rfl | ha
    · exact ⟨y, List.mem_cons_self, head⟩
    · obtain ⟨x, hx, rel⟩ := ih ha
      exact ⟨x, List.mem_cons_of_mem _ hx, rel⟩

theorem exists_mem_left {owners : List β} {x : β} (owned : List.Forall₂ R l owners)
    (hx : x ∈ owners) : ∃ a ∈ l, R a x := by
  have flipped : List.Forall₂ (flip R) owners l := owned.flip
  exact exists_mem_right flipped hx

theorem split_owners {owners : List β} (owned : List.Forall₂ R (l₁ ++ a :: l₂) owners) :
    ∃ o₁ x o₂, owners = o₁ ++ x :: o₂ ∧ R a x ∧ List.Forall₂ R (l₁ ++ l₂) (o₁ ++ o₂) := by
  induction l₁ generalizing owners with
  | nil =>
    cases owned with
    | @cons _ x _ owners head tail => exact ⟨[], x, owners, rfl, head, tail⟩
  | cons b l₁ ih =>
    cases owned with
    | @cons _ y _ owners head tail =>
      obtain ⟨o₁, x, o₂, rfl, rel, rest⟩ := ih tail
      exact ⟨y :: o₁, x, o₂, rfl, rel, .cons head rest⟩

namespace EachOwned

theorem nil : EachOwned R [] := ⟨[], .nil, List.nodup_nil⟩

theorem exists_owner (h : EachOwned R l) (ha : a ∈ l) : ∃ x, R a x := by
  obtain ⟨owners, owned, _⟩ := h
  obtain ⟨x, _, rel⟩ := exists_mem_right owned ha
  exact ⟨x, rel⟩

theorem pairwise {P : α → α → Prop} (h : EachOwned R l)
    (apart : ∀ a b x y, R a x → R b y → x ≠ y → P a b) : l.Pairwise P := by
  obtain ⟨owners, owned, distinct⟩ := h
  induction owned with
  | nil => exact .nil
  | @cons a x l owners head tail ih =>
    rw [List.nodup_cons] at distinct
    refine .cons ?_ (ih distinct.2)
    intro b hb
    obtain ⟨y, hy, rel⟩ := exists_mem_right tail hb
    exact apart a b x y head rel fun same => distinct.1 (same ▸ hy)

theorem imp (h : EachOwned R l) (sub : ∀ a x, R a x → S a x) : EachOwned S l := by
  obtain ⟨owners, owned, distinct⟩ := h
  exact ⟨owners, owned.imp sub, distinct⟩

theorem cons {x : β} (h : EachOwned R l) (rel : R a x) (free : ∀ b ∈ l, ¬R b x) :
    EachOwned R (a :: l) := by
  obtain ⟨owners, owned, distinct⟩ := h
  refine ⟨x :: owners, .cons rel owned, List.nodup_cons.mpr ⟨?_, distinct⟩⟩
  intro hx
  obtain ⟨b, hb, shared⟩ := exists_mem_left owned hx
  exact free b hb shared

theorem remove (h : EachOwned R (l₁ ++ a :: l₂)) :
    ∃ x, R a x ∧ EachOwned (fun b y => R b y ∧ y ≠ x) (l₁ ++ l₂) := by
  obtain ⟨owners, owned, distinct⟩ := h
  obtain ⟨o₁, x, o₂, rfl, rel, rest⟩ := split_owners owned
  rw [List.nodup_middle, List.nodup_cons] at distinct
  refine ⟨x, rel, o₁ ++ o₂, ?_, distinct.2⟩
  rw [List.forall₂_iff_zip] at rest ⊢
  refine ⟨rest.1, fun {b y} hz => ⟨rest.2 hz, ?_⟩⟩
  rintro rfl
  exact distinct.1 (List.of_mem_zip hz).2

theorem tail (h : EachOwned R (a :: l)) : EachOwned R l := by
  obtain ⟨_, _, rest⟩ := @EachOwned.remove _ _ _ [] _ _ h
  exact rest.imp fun _ _ h => h.1

end EachOwned

end Library.Owners
