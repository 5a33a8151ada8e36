import Mathlib.Data.List.Perm.Subperm
import Mathlib.Data.List.Nodup
import Mathlib.Data.Nat.ModEq

/-!
# Tables of slots

A table is a list of slots, each of them free or occupied. Filling or clearing
one slot adds or takes away exactly one occupant. A cyclic search that starts
anywhere and goes once around meets every slot exactly once.
-/

namespace Library.Slots
set_option autoImplicit false

variable {α β : Type*}

theorem filterMap_gain {l : List β} (once : l.Nodup) {k : β} (mem : k ∈ l) {f g : β → Option α}
    {x : α} (free : f k = none) (gained : g k = some x) (same : ∀ j ∈ l, j ≠ k → g j = f j) :
    (l.filterMap g).Perm (x :: l.filterMap f) := by
  induction l with
  | nil => cases mem
  | cons head tail ih =>
    obtain ⟨fresh, rest⟩ := List.nodup_cons.mp once
    obtain rfl | later := List.mem_cons.mp mem
    · have tails : tail.filterMap g = tail.filterMap f := by
        apply List.filterMap_congr
        intro j hj
        apply same j (List.mem_cons_of_mem _ hj)
        rintro rfl
        exact fresh hj
      rw [List.filterMap_cons_some gained, List.filterMap_cons_none free, tails]
    · have tails := ih rest later fun j hj => same j (List.mem_cons_of_mem _ hj)
      have heads : g head = f head := by
        apply same head List.mem_cons_self
        rintro rfl
        exact fresh later
      cases occupied : f head with
      | none => rwa [List.filterMap_cons_none (heads.trans occupied), List.filterMap_cons_none occupied]
      | some y =>
        rw [List.filterMap_cons_some (heads.trans occupied), List.filterMap_cons_some occupied]
        exact (tails.cons y).trans (List.Perm.swap _ _ _)

theorem filterMap_range (l : List β) (f : β → Option α) :
    (List.range l.length).filterMap (fun b => l[b]?.bind f) = l.filterMap f := by
  induction l with
  | nil => rfl
  | cons head tail ih =>
    rw [List.length_cons, List.range_succ_eq_map, List.filterMap_cons, List.filterMap_map,
      List.filterMap_cons, ← ih]
    rfl

theorem filterMap_fill {f : β → Option α} {l : List β} {b : Nat} {old new : β} {x : α}
    (found : l[b]? = some old) (free : f old = none) (fills : f new = some x) :
    ((l.set b new).filterMap f).Perm (x :: l.filterMap f) := by
  have inside : b < l.length := (List.getElem?_eq_some_iff.mp found).1
  rw [← filterMap_range, ← filterMap_range l, List.length_set]
  apply filterMap_gain List.nodup_range (List.mem_range.mpr inside)
  · rw [found, Option.bind_some, free]
  · rw [List.getElem?_set_self inside, Option.bind_some, fills]
  · intro j _ other
    rw [List.getElem?_set_ne other.symm]

theorem filterMap_clear {f : β → Option α} {l : List β} {b : Nat} {old : β} {x : α} (new : β)
    (found : l[b]? = some old) (occupied : f old = some x) (clears : f new = none) :
    (l.filterMap f).Perm (x :: (l.set b new).filterMap f) := by
  obtain ⟨inside, holds⟩ := List.getElem?_eq_some_iff.mp found
  have filled : (((l.set b new).set b old).filterMap f).Perm (x :: (l.set b new).filterMap f) :=
    filterMap_fill (List.getElem?_set_self inside) clears occupied
  rwa [List.set_set, ← holds, List.set_getElem_self] at filled

/-- A table with fewer occupants than slots has a free slot. -/
theorem exists_free {f : β → Option α} {l : List β} (room : (l.filterMap f).length < l.length) :
    ∃ (b : Nat) (old : β), l[b]? = some old ∧ f old = none := by
  by_contra full
  have every : ∀ old ∈ l, (f old).isSome := by
    intro old hold
    obtain ⟨b, found⟩ := List.mem_iff_getElem?.mp hold
    rw [Option.isSome_iff_ne_none]
    intro free
    exact full ⟨b, old, found, free⟩
  rw [List.length_filterMap_eq_countP, List.countP_eq_length.mpr every] at room
  exact lt_irrefl _ room

/-- The slots in the order of a search from `h` on. -/
def around (m h : Nat) : List Nat := (List.range m).map fun i => (h + i) % m

theorem around_perm (m h : Nat) : (around m h).Perm (List.range m) := by
  have inside : around m h ⊆ List.range m := by
    intro b hb
    obtain ⟨i, hi, rfl⟩ := List.mem_map.mp hb
    exact List.mem_range.mpr (Nat.mod_lt _ (Nat.zero_lt_of_lt (List.mem_range.mp hi)))
  have once : (around m h).Nodup := by
    apply List.Nodup.map_on _ List.nodup_range
    intro i hi j hj same
    have close : i % m = j % m := Nat.ModEq.add_left_cancel' h same
    rwa [Nat.mod_eq_of_lt (List.mem_range.mp hi), Nat.mod_eq_of_lt (List.mem_range.mp hj)] at close
  exact (once.subperm inside).perm_of_length_le (by simp [around])

/-- Every slot is met by the search. -/
theorem exists_around {m b : Nat} (inside : b < m) (h : Nat) : ∃ i < m, (h + i) % m = b := by
  have met : b ∈ around m h := (around_perm m h).mem_iff.mpr (List.mem_range.mpr inside)
  obtain ⟨i, hi, at_⟩ := List.mem_map.mp met
  exact ⟨i, List.mem_range.mp hi, at_⟩

/-- What the search meets is what the table holds, in another order. -/
theorem filterMap_around_perm (l : List β) (f : β → Option α) (h : Nat) :
    ((around l.length h).filterMap fun b => l[b]?.bind f).Perm (l.filterMap f) := by
  rw [← filterMap_range l f]
  exact (around_perm l.length h).filterMap _

end Library.Slots
